import Mathlib.Data.List.Nodup
import Mathlib.Data.Nat.Nth
import TuiMarkup.Proofs.Building
import TuiMarkup.Proofs.Declarations
import TuiMarkup.Proofs.Slots
import TuiMarkup.Proofs.Spelling
import TuiMarkup.Proofs.Splitting

/-! What fields are called: by the names that the document gives, and for other elements by names
that are counted up for each type past the given ones. -/

namespace TuiMarkup.Proofs.FieldNames

open Declarations Slots Splitting

variable {taken : List String} {type type' name : String} {n m root : ℕ} {counts : Table ℕ}
  {ts : List Tag} {t : Tag} {g : Tag → Option String}

/-! ### Made names -/

lemma madeName_reverse (type : String) (n : ℕ) :
    (Fields.madeName type n).toList.reverse =
      (toString n).toList.reverse ++ '_' :: ("__" ++ type).toList.reverse := by
  have hm : "_".toList = ['_'] := by decide
  rw [Fields.madeName, toList_around hm]
  simp

lemma madeName_inj : Fields.madeName type n = Fields.madeName type' m ↔ type = type' ∧ n = m := by
  constructor
  · intro h
    have hc : ∀ type n, Text.cutFirstChars '_' (Fields.madeName type n).toList.reverse =
        some ((toString n).toList.reverse, ("__" ++ type).toList.reverse) := by
      intro type n
      rw [madeName_reverse, cutFirstChars_append (by simp)]
    have hr := hc type n
    rw [h, hc, Option.some_inj, Prod.mk.injEq, List.reverse_inj, List.reverse_inj] at hr
    obtain ⟨hd, ht⟩ := hr
    constructor
    · simpa [String.toList_inj] using ht.symm
    · rw [← Spelling.decimalValue_toString n, ← hd, Spelling.decimalValue_toString]
  · rintro ⟨rfl, rfl⟩
    rfl

/-! ### Free numbers -/

def Free (taken : List String) (type : String) (n : ℕ) : Prop :=
  0 < n ∧ Fields.madeName type n ∉ taken

instance (taken : List String) (type : String) : DecidablePred (Free taken type) :=
  fun n => inferInstanceAs (Decidable (0 < n ∧ Fields.madeName type n ∉ taken))

lemma exists_not_taken (taken : List String) (type : String) (n : ℕ) :
    ∃ m ∈ List.range' (n + 1) (taken.length + 1), Fields.madeName type m ∉ taken := by
  by_contra h
  push Not at h
  have hs : (List.range' (n + 1) (taken.length + 1)).map (Fields.madeName type) ⊆ taken := by
    intro name hm
    obtain ⟨m, hr, rfl⟩ := List.mem_map.mp hm
    exact h m hr
  have hi : Function.Injective (Fields.madeName type) := fun _ _ he => (madeName_inj.mp he).2
  have hn : (List.range' (n + 1) (taken.length + 1)).Nodup := List.nodup_range' 1
  have hl := ((hn.map hi).subperm hs).length_le
  rw [List.length_map, List.length_range'] at hl
  omega

lemma nextFree_isLeast (taken : List String) (type : String) (n : ℕ) :
    IsLeast {m | Free taken type m ∧ n + 1 ≤ m} (Fields.nextFree taken type n) := by
  obtain ⟨m, hm, hf⟩ := exists_not_taken taken type n
  have hs : ((List.range' (n + 1) (taken.length + 1)).find?
      fun m => !taken.contains (Fields.madeName type m)).isSome := by
    rw [List.find?_isSome]
    exact ⟨m, hm, by simpa using hf⟩
  obtain ⟨k, hk⟩ := Option.isSome_iff_exists.mp hs
  have hn : Fields.nextFree taken type n = k := by rw [Fields.nextFree, hk, Option.getD_some]
  rw [hn]
  obtain ⟨hp, hr, hj⟩ := List.find?_range'_eq_some.mp hk
  have hl : n + 1 ≤ k := (List.mem_range'_1.mp hr).1
  constructor
  · exact ⟨⟨by omega, by simpa using hp⟩, hl⟩
  · rintro j ⟨⟨-, hf⟩, hle⟩
    by_contra hlt
    have ht := hj j hle (by omega)
    simp at ht
    exact hf ht

lemma free_infinite (taken : List String) (type : String) :
    (Set.ofPred (Free taken type)).Infinite := by
  apply Set.infinite_of_forall_exists_gt
  intro n
  obtain ⟨hf, hn⟩ := (nextFree_isLeast taken type n).1
  exact ⟨_, hf, hn⟩

lemma nextFree_eq_nth (taken : List String) (type : String) (n : ℕ) :
    Fields.nextFree taken type n =
      Nat.nth (Free taken type) (Nat.count (Free taken type) (n + 1)) := by
  rw [Nat.nth_count_eq_sInf, (nextFree_isLeast taken type n).csInf_eq]

/-! ### Counting up -/

def lastNumber (counts : Table ℕ) (type : String) : ℕ :=
  (counts.get? type).getD 0

lemma lastNumber_put (counts : Table ℕ) (key : String) (n : ℕ) (type : String) :
    lastNumber (counts.put key n) type = if type = key then n else lastNumber counts type := by
  rw [lastNumber, get?_put]
  split <;> rfl

def used (taken : List String) (counts : Table ℕ) (type : String) : ℕ :=
  Nat.count (Free taken type) (lastNumber counts type + 1)

lemma used_empty (taken : List String) (type : String) : used taken {} type = 0 := by
  change Nat.count _ 1 = 0
  rw [Nat.count_one]
  simp [Free]

lemma used_put (taken : List String) (counts : Table ℕ) (key type : String) :
    used taken (counts.put key (Fields.nextFree taken key (lastNumber counts key))) type =
      if type = key then used taken counts key + 1 else used taken counts type := by
  rw [used, lastNumber_put]
  split
  · next h =>
    subst h
    rw [nextFree_eq_nth, Nat.count_nth_succ_of_infinite (free_infinite taken type), used]
  · rfl

def isMade (root : ℕ) (type : String) (t : Tag) : Bool :=
  t.explicitName?.isNone && t.index != root && t.type == type

lemma names_made (hg : ts.map g = Fields.names taken root counts ts) (type : String) :
    (ts.filter (isMade root type)).map g =
      (List.range' (used taken counts type) (ts.filter (isMade root type)).length).map
        fun k => some (Fields.madeName type (Nat.nth (Free taken type) k)) := by
  fun_induction Fields.names taken root counts ts with
  | case1 => rfl
  | case2 counts t ts name hs ih =>
    obtain ⟨-, hts⟩ := List.cons_eq_cons.mp hg
    rw [List.filter_cons_of_neg (by simp [isMade, hs])]
    exact ih hts
  | case3 counts t ts hs hr ih =>
    obtain ⟨-, hts⟩ := List.cons_eq_cons.mp hg
    rw [List.filter_cons_of_neg (by simp [isMade, hr])]
    exact ih hts
  | case4 counts t ts hs hr n ih =>
    obtain ⟨ht, hts⟩ := List.cons_eq_cons.mp hg
    have hu : used taken (counts.put t.type n) type = _ := used_put taken counts t.type type
    have hi := ih hts
    rw [hu] at hi
    -- Of all types only that of the element has used up one more number.
    by_cases hT : type = t.type
    · subst hT
      rw [List.filter_cons_of_pos (by simp [isMade, hs, hr]), List.map_cons, List.length_cons,
        List.range'_succ, List.map_cons, hi, if_pos rfl, ht]
      congr 3
      exact nextFree_eq_nth taken t.type _
    · rw [List.filter_cons_of_neg (by simp [isMade, Ne.symm hT]), hi, if_neg hT]

lemma names_own (hg : ts.map g = Fields.names taken root counts ts) (ht : t ∈ ts)
    (h : t.explicitName?.isSome ∨ t.index = root) : g t = t.explicitName? := by
  fun_induction Fields.names taken root counts ts with
  | case1 => cases ht
  | case2 counts s ts name hs ih =>
    obtain ⟨hh, hts⟩ := List.cons_eq_cons.mp hg
    rcases List.mem_cons.mp ht with rfl | ht
    · rw [hh, hs]
    · exact ih hts ht
  | case3 counts s ts hs hr ih =>
    obtain ⟨hh, hts⟩ := List.cons_eq_cons.mp hg
    rcases List.mem_cons.mp ht with rfl | ht
    · rw [hh, hs]
    · exact ih hts ht
  | case4 counts s ts hs hr n ih =>
    obtain ⟨hh, hts⟩ := List.cons_eq_cons.mp hg
    rcases List.mem_cons.mp ht with rfl | ht
    · simp [hs, hr] at h
    · exact ih hts ht

/-- The names where a search passes over the names made before it as well as over the taken ones. -/
def namesPast (taken made : List String) (root : ℕ) (counts : Table ℕ) :
    List Tag → List (Option String)
  | [] => []
  | t :: ts =>
    match t.explicitName? with
    | some name => some name :: namesPast taken made root counts ts
    | none =>
      if t.index = root then none :: namesPast taken made root counts ts
      else
        let n := Fields.nextFree (taken ++ made) t.type (lastNumber counts t.type)
        some (Fields.madeName t.type n) ::
          namesPast taken (Fields.madeName t.type n :: made) root (counts.put t.type n) ts

lemma nextFree_append {made : List String} (h : ∀ m, n < m → Fields.madeName type m ∉ made) :
    Fields.nextFree (taken ++ made) type n = Fields.nextFree taken type n := by
  have hf : {m | Free (taken ++ made) type m ∧ n + 1 ≤ m} =
      {m | Free taken type m ∧ n + 1 ≤ m} := by
    ext m
    simp only [Free, Set.mem_ofPred_eq, List.mem_append, not_or, and_assoc, and_congr_right_iff]
    exact fun _ _ => and_iff_right_of_imp fun hm => h m hm
  have hl := nextFree_isLeast (taken ++ made) type n
  rw [hf] at hl
  exact hl.unique (nextFree_isLeast taken type n)

def Bounded (made : List String) (counts : Table ℕ) : Prop :=
  ∀ type m, Fields.madeName type m ∈ made → m ≤ lastNumber counts type

lemma Bounded.put {made : List String} (h : Bounded made counts) (hn : lastNumber counts type < n) :
    Bounded (Fields.madeName type n :: made) (counts.put type n) := by
  intro type' m hm
  rw [lastNumber_put]
  rcases List.mem_cons.mp hm with he | hm
  · obtain ⟨rfl, rfl⟩ := madeName_inj.mp he
    rw [if_pos rfl]
  · have hle := h type' m hm
    split
    · next he =>
      subst he
      omega
    · exact hle

lemma namesPast_eq_names {made : List String} (h : Bounded made counts) :
    namesPast taken made root counts ts = Fields.names taken root counts ts := by
  induction ts generalizing made counts with
  | nil => rfl
  | cons t ts ih =>
    rw [namesPast, Fields.names]
    cases t.explicitName? with
    | some name => simp only [ih h]
    | none =>
      -- All names made so far have lower numbers, so the search does not come upon them.
      have hn : Fields.nextFree (taken ++ made) t.type (lastNumber counts t.type) =
          Fields.nextFree taken t.type (lastNumber counts t.type) :=
        nextFree_append fun m hlt hm => absurd (h t.type m hm) (by omega)
      have hlt := (nextFree_isLeast taken t.type (lastNumber counts t.type)).1.2
      simp only [hn, ih h, ih (h.put hlt)]
      rfl

/-! ### Fields of documents -/

section Documents

variable {d : Document}

def given (d : Document) : List String :=
  d.tags.filterMap (·.explicitName?)

def fieldOf (f : Fields) (index : ℕ) : Option String :=
  (f.slot index).toOption.bind (·.field)

lemma slots_field (catalog : Catalog) (d : Document) :
    (Fields.build catalog d).slots.map (·.field) =
      Fields.names (given d) d.root.tag.index {} d.tags := by
  have hn := names_length (d.tags.filterMap (·.explicitName?)) d.root.tag.index {} d.tags
  apply List.ext_getElem
  · simp [Fields.build, given, hn]
  · intro i hl hr
    simp [Fields.build, Fields.slotOf, given]

lemma map_fieldOf (catalog : Catalog) (hn : (d.tags.map (·.index)).Nodup) :
    d.tags.map (fun t => fieldOf (Fields.build catalog d) t.index) =
      Fields.names (given d) d.root.tag.index {} d.tags := by
  have hs := map_slot catalog hn
  rw [← slots_field catalog d]
  calc d.tags.map (fun t => fieldOf (Fields.build catalog d) t.index)
      = (d.tags.map fun t => (Fields.build catalog d).slot t.index).map
          (·.toOption.bind (·.field)) := by rw [List.map_map]; rfl
    _ = (Fields.build catalog d).slots.map (·.field) := by rw [hs, List.map_map]; rfl

lemma slot_fieldOf (catalog : Catalog) (hn : (d.tags.map (·.index)).Nodup) (ht : t ∈ d.tags) :
    (Fields.build catalog d).slot t.index =
      .ok (Fields.slotOf catalog t (fieldOf (Fields.build catalog d) t.index)) := by
  obtain ⟨field, hf⟩ := slot_eq catalog hn ht
  have hd : fieldOf (Fields.build catalog d) t.index = field := by
    rw [fieldOf, hf]
    rfl
  rw [hf, hd]

lemma fieldOf_own (catalog : Catalog) (hn : (d.tags.map (·.index)).Nodup) (ht : t ∈ d.tags)
    (h : t.explicitName?.isSome ∨ t.index = d.root.tag.index) :
    fieldOf (Fields.build catalog d) t.index = t.explicitName? :=
  names_own (g := fun t => fieldOf (Fields.build catalog d) t.index) (map_fieldOf catalog hn) ht h

lemma fieldOf_made (catalog : Catalog) (hn : (d.tags.map (·.index)).Nodup) {k : ℕ}
    (h : (d.tags.filter (isMade d.root.tag.index type))[k]? = some t) :
    fieldOf (Fields.build catalog d) t.index =
      some (Fields.madeName type (Nat.nth (Free (given d) type) k)) := by
  have hm := congrArg (·[k]?) (names_made (map_fieldOf catalog hn) type)
  obtain ⟨hk, rfl⟩ := List.getElem?_eq_some_iff.mp h
  simpa [hk, used_empty] using hm

lemma fieldOf_cases (catalog : Catalog) (hn : (d.tags.map (·.index)).Nodup) (ht : t ∈ d.tags)
    (h : fieldOf (Fields.build catalog d) t.index = some name) :
    t.explicitName? = some name ∨ ∃ k,
      (d.tags.filter (isMade d.root.tag.index t.type))[k]? = some t ∧
        name = Fields.madeName t.type (Nat.nth (Free (given d) t.type) k) := by
  by_cases ho : t.explicitName?.isSome ∨ t.index = d.root.tag.index
  · rw [fieldOf_own catalog hn ht ho] at h
    exact Or.inl h
  · have hm : t ∈ d.tags.filter (isMade d.root.tag.index t.type) := by
      simp only [not_or, Option.not_isSome_iff_eq_none] at ho
      simp [isMade, ht, ho]
    obtain ⟨k, hk⟩ := List.mem_iff_getElem?.mp hm
    rw [fieldOf_made catalog hn hk, Option.some_inj] at h
    exact Or.inr ⟨k, hk, h.symm⟩

lemma madeName_not_given (d : Document) (type : String) (k : ℕ) :
    Fields.madeName type (Nat.nth (Free (given d) type) k) ∉ given d :=
  (Nat.nth_mem_of_infinite (free_infinite (given d) type) k).2

lemma madeName_nth_inj {k k' : ℕ} (h : Fields.madeName type (Nat.nth (Free taken type) k) =
    Fields.madeName type' (Nat.nth (Free taken type') k')) : type = type' ∧ k = k' := by
  obtain ⟨rfl, hk⟩ := madeName_inj.mp h
  exact ⟨rfl, Nat.nth_injective (free_infinite taken type) hk⟩

lemma given_of_fieldOf_eq (catalog : Catalog) (hn : (d.tags.map (·.index)).Nodup) {t' : Tag}
    (ht : t ∈ d.tags) (ht' : t' ∈ d.tags) (hne : t ≠ t')
    (h : fieldOf (Fields.build catalog d) t.index = some name)
    (h' : fieldOf (Fields.build catalog d) t'.index = some name) :
    t.explicitName? = some name ∧ t'.explicitName? = some name := by
  have hg : ∀ {u : Tag}, u ∈ d.tags → u.explicitName? = some name → name ∈ given d :=
    fun hu hs => List.mem_filterMap.mpr ⟨_, hu, hs⟩
  rcases fieldOf_cases catalog hn ht h with hs | ⟨k, hk, he⟩ <;>
    rcases fieldOf_cases catalog hn ht' h' with hs' | ⟨k', hk', he'⟩
  · exact ⟨hs, hs'⟩
  · exact absurd (hg ht hs) (he' ▸ madeName_not_given d _ _)
  · exact absurd (hg ht' hs') (he ▸ madeName_not_given d _ _)
  · obtain ⟨hT, rfl⟩ := madeName_nth_inj (he.symm.trans he')
    rw [hT, hk', Option.some_inj] at hk
    exact absurd hk.symm hne

lemma slots_eq (catalog : Catalog) (hn : (d.tags.map (·.index)).Nodup) :
    (Fields.build catalog d).slots = d.tags.map fun t =>
      Fields.slotOf catalog t (fieldOf (Fields.build catalog d) t.index) := by
  have hi : Function.Injective (Except.ok : Slot → Except GenerationFault Slot) :=
    fun _ _ h => Except.ok.inj h
  apply hi.list_map
  rw [← map_slot catalog hn, List.map_map]
  exact List.map_congr_left fun t ht => slot_fieldOf catalog hn ht

lemma declarations_eq (catalog : Catalog) (hn : (d.tags.map (·.index)).Nodup) :
    (Fields.build catalog d).declarations = d.tags.filterMap fun t =>
      (fieldOf (Fields.build catalog d) t.index).map fun name =>
        (Fields.outputTypeOf catalog t, name) := by
  rw [Fields.declarations, slots_eq catalog hn, List.filterMap_map]
  rfl

lemma declared_nodup (catalog : Catalog) (hn : (d.tags.map (·.index)).Nodup)
    (hg : (given d).Nodup) : ((Fields.build catalog d).declarations.map (·.2)).Nodup := by
  have hd : d.tags.Pairwise (· ≠ ·) := hn.of_map
  have hp : d.tags.Pairwise fun t t' =>
      ∀ name, t.explicitName? = some name → ∀ name', t'.explicitName? = some name' →
        name ≠ name' := List.pairwise_filterMap.mp hg
  rw [declarations_eq catalog hn, List.map_filterMap, List.Nodup, List.pairwise_filterMap]
  simp only [Option.map_map, Function.comp_def, Option.map_id_fun', id]
  refine (hd.and hp).imp_of_mem ?_
  rintro t t' ht ht' ⟨hne, hs⟩ name h _ h' rfl
  obtain ⟨he, he'⟩ := given_of_fieldOf_eq catalog hn ht ht' hne h h'
  exact hs name he name he' rfl

/-- Every element of a document has one slot. Its field is the name that the document gives it,
without blanks around it; the root without a name is the object itself, and the other elements
without one get made names, those of each type with the numbers whose names are not given, in order.
These are also the names that a search finds which passes over the made ones. -/
theorem field_names {catalog : Catalog} {source path : String}
    (h : Document.read catalog source path = .ok d) (types : Catalog) :
    ((Fields.build types d).slots.map (·.index) = d.tags.map (·.index) ∧
      (d.tags.map (·.index)).Nodup) ∧
    (∀ t ∈ d.tags, ∀ value, t.attribute? "x:Name" = some value → Text.trim value ≠ "" →
      (Fields.build types d).slot t.index = .ok
        { index := t.index, reference := Text.trim value, field := some (Text.trim value),
          outputType := Fields.outputTypeOf types t }) ∧
    (d.root.tag.explicitName? = none →
      (Fields.build types d).slot d.root.tag.index = .ok
        { index := d.root.tag.index, reference := "this", field := none,
          outputType := Fields.outputTypeOf types d.root.tag }) ∧
    (∀ type k t, (d.tags.filter fun t => t.explicitName?.isNone && t.index != d.root.tag.index &&
        t.type == type)[k]? = some t →
      let name := Fields.madeName type (Nat.nth (Free (given d) type) k)
      (Fields.build types d).slot t.index = .ok
        { index := t.index, reference := name, field := some name,
          outputType := Fields.outputTypeOf types t }) ∧
    (∀ t ∈ d.tags, t.explicitName? = none → t.index ≠ d.root.tag.index →
      ∃ name, fieldOf (Fields.build types d) t.index = some name ∧ name ∉ given d ∧
        ∀ t' ∈ d.tags, t' ≠ t → fieldOf (Fields.build types d) t'.index ≠ some name) ∧
    ((given d).Nodup → ((Fields.build types d).declarations.map (·.2)).Nodup) ∧
    (Fields.build types d).declarations = d.tags.filterMap (fun t =>
      (fieldOf (Fields.build types d) t.index).map fun name =>
        (Fields.outputTypeOf types t, name)) ∧
    (Fields.build types d).slots.map (·.field) =
      namesPast (given d) [] d.root.tag.index {} d.tags := by
  have hn : (d.tags.map (·.index)).Nodup := by
    rw [Building.document_indices h]
    exact List.nodup_range
  have hr : d.root.tag ∈ d.tags := by
    rw [tags_eq, DocumentOrder.preorder_eq]
    exact .head _
  refine ⟨⟨slots_indices types d, hn⟩, ?_, ?_, ?_, ?_, declared_nodup types hn,
    declarations_eq types hn, ?_⟩
  · intro t ht value hv hb
    have hs : t.explicitName? = some (Text.trim value) := by
      rw [Tag.explicitName?, hv, Option.bind_some, Text.trimmed?, if_neg hb]
    rw [slot_fieldOf types hn ht, fieldOf_own types hn ht (Or.inl (by rw [hs]; rfl)), hs]
    rfl
  · intro hs
    rw [slot_fieldOf types hn hr, fieldOf_own types hn hr (Or.inr rfl), hs]
    rfl
  · intro type k t hk
    have ht : t ∈ d.tags := (List.mem_filter.mp (List.mem_of_getElem? hk)).1
    rw [slot_fieldOf types hn ht, fieldOf_made types hn hk]
    rfl
  · intro t ht hs hi
    have hm : t ∈ d.tags.filter (isMade d.root.tag.index t.type) := by simp [isMade, ht, hs, hi]
    obtain ⟨k, hk⟩ := List.mem_iff_getElem?.mp hm
    refine ⟨_, fieldOf_made types hn hk, madeName_not_given d t.type k, ?_⟩
    intro t' ht' hne he
    -- Two elements share a name only if both were given it.
    obtain ⟨-, hs'⟩ := given_of_fieldOf_eq types hn ht' ht hne he (fieldOf_made types hn hk)
    rw [hs] at hs'
    cases hs'
  · rw [slots_field, namesPast_eq_names fun _ _ hm => by cases hm]

def labels : String :=
  "<W x:Class='C'><Label/><Label x:Name=' __Label_2 '/><Label/></W>"

/-- The last label is numbered past the name that is given before it. -/
theorem field_names_labels :
    ∃ d, Document.read {} labels "" = .ok d ∧ given d = ["__Label_2"] ∧
      (Fields.build {} d).declarations.map (·.2) = ["__Label_1", "__Label_2", "__Label_3"] ∧
      ((Fields.build {} d).declarations.map (·.2)).Nodup ∧
      ∀ k t, (d.tags.filter fun t => t.explicitName?.isNone && t.index != d.root.tag.index &&
          t.type == "Label")[k]? = some t →
        fieldOf (Fields.build {} d) t.index =
          some (Fields.madeName "Label" (Nat.nth (Free ["__Label_2"] "Label") k)) := by
  have hr : (Document.read {} labels "").toOption.map
      (fun d => (given d, (Fields.build {} d).declarations.map (·.2))) =
      some (["__Label_2"], ["__Label_1", "__Label_2", "__Label_3"]) := by
    decide +kernel
  cases hd : Document.read {} labels "" with
  | error _ =>
    rw [hd] at hr
    cases hr
  | ok d =>
    rw [hd] at hr
    obtain ⟨hg, hs⟩ := Prod.mk.inj (Option.some.inj hr)
    obtain ⟨-, -, -, hm, -, hn, -⟩ := field_names hd {}
    refine ⟨d, rfl, hg, hs, hn (by rw [hg]; decide), ?_⟩
    intro k t hk
    rw [fieldOf, hm "Label" k t hk, hg]
    rfl

end Documents

end TuiMarkup.Proofs.FieldNames
