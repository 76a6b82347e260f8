import Mathlib.Data.List.Induction
import Mathlib.Data.List.Nodup
import Mathlib.Tactic.Lemma
import TuiMarkup.Catalog.Schema

/-! What a catalog knows from the lines it is made of: for each name what was declared last. -/

namespace TuiMarkup.Proofs.Declarations

variable {α β : Type} {key k s type owner event property : String} {catalog : Catalog}

/-! ### First occurrences -/

lemma eraseDups_concat (xs : List String) (x : String) :
    (xs ++ [x]).eraseDups = if x ∈ xs then xs.eraseDups else xs.eraseDups ++ [x] := by
  rw [List.eraseDups_append]
  by_cases hx : x ∈ xs <;> simp [List.removeAll, List.eraseDups_cons, hx]

lemma nodup_eraseDups (xs : List String) : xs.eraseDups.Nodup := by
  induction xs using List.reverseRecOn with
  | nil => exact .nil
  | append_singleton xs x ih =>
    rw [eraseDups_concat]
    split
    · exact ih
    next hx =>
      refine List.nodup_append.mpr ⟨ih, List.nodup_singleton x, ?_⟩
      rintro y hy z hz rfl
      rw [List.mem_eraseDups] at hy
      exact hx (List.mem_singleton.mp hz ▸ hy)

lemma eraseDups_of_nodup {xs : List String} (h : xs.Nodup) : xs.eraseDups = xs := by
  induction xs using List.reverseRecOn with
  | nil => rfl
  | append_singleton xs x ih =>
    obtain ⟨hxs, -, hx⟩ := List.nodup_append.mp h
    have hn : x ∉ xs := fun hm => hx x hm x (List.mem_singleton_self x) rfl
    rw [eraseDups_concat, if_neg hn, ih hxs]

/-! ### Tables -/

lemma lookup_cons_eq (k : String) (e : String × α) (es : List (String × α)) :
    (e :: es).lookup k = if k = e.1 then some e.2 else es.lookup k := by
  by_cases h : k = e.1
  · rw [if_pos h, List.lookup_cons, beq_iff_eq.mpr h]
  · rw [if_neg h, List.lookup_cons, beq_eq_false_iff_ne.mpr h]

lemma lookup_upsertEntries (key k : String) (f : Option α → α) (es : List (String × α)) :
    (Table.upsertEntries key f es).lookup k =
      if k = key then some (f (es.lookup key)) else es.lookup k := by
  induction es with
  | nil => simp [Table.upsertEntries, lookup_cons_eq]
  | cons e es ih =>
    obtain ⟨x, v⟩ := e
    rw [Table.upsertEntries]
    by_cases hx : x = key
    · subst hx
      by_cases hk : k = x <;> simp [lookup_cons_eq, hk]
    · by_cases hk : k = x
      · subst hk
        simp [hx]
      · simp [lookup_cons_eq, hx, Ne.symm hx, hk, ih]

lemma get?_upsert (t : Table α) (key : String) (f : Option α → α) (k : String) :
    (t.upsert key f).get? k = if k = key then some (f (t.get? key)) else t.get? k :=
  lookup_upsertEntries ..

lemma get?_put (t : Table α) (key : String) (v : α) (k : String) :
    (t.put key v).get? k = if k = key then some v else t.get? k :=
  get?_upsert ..

lemma keys_upsert (t : Table α) (key : String) (f : Option α → α) :
    (t.upsert key f).keys = if key ∈ t.keys then t.keys else t.keys ++ [key] := by
  obtain ⟨es⟩ := t
  change (Table.upsertEntries key f es).map Prod.fst =
    if key ∈ es.map Prod.fst then es.map Prod.fst else es.map Prod.fst ++ [key]
  induction es with
  | nil => rfl
  | cons e es ih =>
    obtain ⟨x, v⟩ := e
    rw [Table.upsertEntries]
    by_cases hx : x = key
    · simp [hx]
    · rw [if_neg hx, List.map_cons, ih]
      by_cases hm : key ∈ es.map Prod.fst <;> simp [hm, Ne.symm hx]

lemma keys_foldl_upsert (name : β → String) (f : β → Option α → α) (bs : List β) :
    (bs.foldl (fun t b => t.upsert (name b) (f b)) ({} : Table α)).keys =
      (bs.map name).eraseDups := by
  induction bs using List.reverseRecOn with
  | nil => rfl
  | append_singleton bs b ih =>
    rw [List.foldl_append, List.foldl_cons, List.foldl_nil, keys_upsert, ih, List.map_append,
      List.map_singleton, eraseDups_concat]
    simp only [List.mem_eraseDups]

lemma get?_getD (t : Option (Table α)) (k : String) : (t.getD {}).get? k = t.bind (·.get? k) := by
  cases t <;> rfl

lemma get?_upsert_inner (t : Table (Table α)) (key : String)
    (f : Option (Table α) → Table α) (s k : String) :
    ((t.upsert key f).get? s).bind (·.get? k) =
      if s = key then (f (t.get? s)).get? k else (t.get? s).bind (·.get? k) := by
  rw [get?_upsert]
  by_cases hs : s = key <;> simp [hs]

/-! ### The last of several values -/

def last? (key : String) (es : List (String × α)) : Option α :=
  es.reverse.lookup key

lemma last?_append (key : String) (es fs : List (String × α)) :
    last? key (es ++ fs) = (last? key fs).or (last? key es) := by
  rw [last?, List.reverse_append, List.lookup_append]
  rfl

lemma last?_singleton (key : String) (e : String × α) :
    last? key [e] = if key = e.1 then some e.2 else none := by
  rw [last?, List.reverse_singleton, lookup_cons_eq, List.lookup_nil]

lemma last?_cons (key : String) (e : String × α) (es : List (String × α)) :
    last? key (e :: es) = (last? key es).or (if key = e.1 then some e.2 else none) := by
  rw [← last?_singleton, ← last?_append, List.singleton_append]

lemma get?_foldl_put (es : List (String × α)) (t : Table α) (k : String) :
    (es.foldl (fun t (name, value) => t.put name value) t).get? k = (last? k es).or (t.get? k) := by
  induction es generalizing t with
  | nil => rfl
  | cons e es ih =>
    rw [List.foldl_cons, ih, get?_put, last?_cons, Option.or_assoc]
    congr 1
    by_cases h : k = e.1 <;> simp [h]

lemma last?_eq_none {es : List (String × α)} :
    last? key es = none ↔ key ∉ es.map Prod.fst := by
  rw [last?, List.lookup_eq_none_iff]
  simp only [List.mem_reverse, bne_iff_ne, List.mem_map, not_exists, not_and]
  constructor
  · intro h e he hk
    exact h e he hk.symm
  · intro h e he hk
    exact h e he hk.symm

lemma last?_isSome {es : List (String × α)} :
    (last? key es).isSome = true ↔ key ∈ es.map Prod.fst := by
  rw [← not_iff_not, Option.not_isSome_iff_eq_none, last?_eq_none]

lemma last?_eq_lookup {es : List (String × α)} (h : (es.map Prod.fst).Nodup) (key : String) :
    last? key es = es.lookup key := by
  induction es with
  | nil => rfl
  | cons e es ih =>
    obtain ⟨hn, hes⟩ := List.nodup_cons.mp h
    rw [last?_cons, ih hes, lookup_cons_eq]
    by_cases hk : key = e.1
    · have hl : es.lookup key = none := by
        rw [List.lookup_eq_none_iff]
        intro x hx
        have hne : key ≠ x.1 := by
          rintro rfl
          exact hn (hk ▸ List.mem_map.mpr ⟨x, hx, rfl⟩)
        simpa using hne
      rw [hl, Option.none_or]
    · rw [if_neg hk, if_neg hk, Option.or_none]

/-! ### Controls -/

lemma addMembers_frame (owner : String) (ms : List Schema.Member) (catalog : Catalog) :
    (ms.foldl (Catalog.addMember owner) catalog).controls = catalog.controls ∧
      (ms.foldl (Catalog.addMember owner) catalog).scopes = catalog.scopes := by
  induction ms generalizing catalog with
  | nil => exact ⟨rfl, rfl⟩
  | cons m ms ih =>
    obtain ⟨hc, hs⟩ := ih (catalog.addMember owner m)
    rw [List.foldl_cons, hc, hs]
    cases m <;> exact ⟨rfl, rfl⟩

lemma addControls_frame (ls : List Schema.ControlLine) (catalog : Catalog) :
    (ls.foldl Catalog.addControl catalog).controls =
        ls.foldl (fun t l => t.put l.name l.control) catalog.controls ∧
      (ls.foldl Catalog.addControl catalog).scopes = catalog.scopes := by
  induction ls generalizing catalog with
  | nil => exact ⟨rfl, rfl⟩
  | cons l ls ih =>
    obtain ⟨hc, hs⟩ := ih (catalog.addControl l)
    rw [List.foldl_cons, hc, hs, List.foldl_cons, Catalog.addControl, (addMembers_frame ..).1,
      (addMembers_frame ..).2]
    exact ⟨rfl, rfl⟩

lemma get?_foldl_controls (ls : List Schema.ControlLine) (t : Table Control) (type : String) :
    (ls.foldl (fun t l => t.put l.name l.control) t).get? type =
      (last? type (ls.map fun l => (l.name, l.control))).or (t.get? type) := by
  rw [← get?_foldl_put, List.foldl_map]

/-! ### Members of controls -/

def membersOf (type : String) (ls : List Schema.ControlLine) : List Schema.Member :=
  (ls.filter (·.name == type)).flatMap (·.members)

lemma membersOf_cons (type : String) (l : Schema.ControlLine) (ls : List Schema.ControlLine) :
    membersOf type (l :: ls) = (if type = l.name then l.members else []) ++ membersOf type ls := by
  by_cases h : type = l.name
  · simp [membersOf, h]
  · simp [membersOf, h, Ne.symm h]

lemma last?_membersOf_isSome {pick : Schema.Member → Option (String × α)}
    {ls : List Schema.ControlLine} :
    (last? key ((membersOf type ls).filterMap pick)).isSome = true ↔
      ∃ l ∈ ls, l.name = type ∧ key ∈ (l.members.filterMap pick).map Prod.fst := by
  simp only [last?_isSome, membersOf, List.filterMap_flatMap, List.map_flatMap, List.mem_flatMap,
    List.mem_filter, beq_iff_eq, and_assoc]

structure Collects (table : Catalog → Table (Table α)) (pick : Schema.Member → Option (String × α)) :
    Prop where
  picked : ∀ catalog owner m name value, pick m = some (name, value) →
    table (catalog.addMember owner m) =
      (table catalog).upsert owner fun t => (t.getD {}).put name value
  passed : ∀ catalog owner m, pick m = none → table (catalog.addMember owner m) = table catalog
  controls : ∀ catalog controls, table { catalog with controls } = table catalog

section Collects

variable {table : Catalog → Table (Table α)} {pick : Schema.Member → Option (String × α)}

lemma Collects.addMember (h : Collects table pick) (catalog : Catalog) (owner : String)
    (m : Schema.Member) (type k : String) :
    ((table (catalog.addMember owner m)).get? type).bind (·.get? k) =
      (if type = owner then last? k (pick m).toList else none).or
        (((table catalog).get? type).bind (·.get? k)) := by
  cases hp : pick m with
  | none =>
    rw [h.passed catalog owner m hp]
    by_cases ht : type = owner <;> simp [ht, last?]
  | some e =>
    obtain ⟨name, value⟩ := e
    rw [h.picked catalog owner m name value hp, get?_upsert_inner, get?_put, get?_getD,
      Option.toList_some, last?_singleton]
    by_cases ht : type = owner
    · by_cases hk : k = name <;> simp [ht, hk]
    · simp [ht]

lemma Collects.addMembers (h : Collects table pick) (ms : List Schema.Member) (catalog : Catalog)
    (owner type k : String) :
    ((table (ms.foldl (Catalog.addMember owner) catalog)).get? type).bind (·.get? k) =
      (if type = owner then last? k (ms.filterMap pick) else none).or
        (((table catalog).get? type).bind (·.get? k)) := by
  induction ms generalizing catalog with
  | nil => by_cases ht : type = owner <;> simp [ht, last?]
  | cons m ms ih =>
    have hm : (m :: ms).filterMap pick = (pick m).toList ++ ms.filterMap pick := by
      rw [List.filterMap_cons]
      cases pick m <;> rfl
    rw [List.foldl_cons, ih, h.addMember, hm, last?_append, ← Option.or_assoc]
    by_cases ht : type = owner <;> simp [ht]

theorem Collects.addControls (h : Collects table pick) (ls : List Schema.ControlLine)
    (catalog : Catalog) (type k : String) :
    ((table (ls.foldl Catalog.addControl catalog)).get? type).bind (·.get? k) =
      (last? k ((membersOf type ls).filterMap pick)).or
        (((table catalog).get? type).bind (·.get? k)) := by
  induction ls generalizing catalog with
  | nil => rfl
  | cons l ls ih =>
    rw [List.foldl_cons, ih, Catalog.addControl, h.addMembers, h.controls, membersOf_cons,
      List.filterMap_append, last?_append, ← Option.or_assoc]
    by_cases ht : type = l.name <;> simp [ht, last?]

end Collects

def eventOf? : Schema.Member → Option (String × EventEntry)
  | .event name entry => some (name, entry)
  | .twoWay .. => none

def pairOf? : Schema.Member → Option (String × String)
  | .event .. => none
  | .twoWay property event => some (property, event)

lemma collects_events : Collects Catalog.events eventOf? where
  picked catalog owner m name value h := by
    cases m with
    | event n e =>
      cases h
      rfl
    | twoWay p e => cases h
  passed catalog owner m h := by
    cases m with
    | event n e => cases h
    | twoWay p e => rfl
  controls _ _ := rfl

lemma collects_changeEvents : Collects Catalog.changeEvents pairOf? where
  picked catalog owner m name value h := by
    cases m with
    | event n e => cases h
    | twoWay p e =>
      cases h
      rfl
  passed catalog owner m h := by
    cases m with
    | event n e => rfl
    | twoWay p e => cases h
  controls _ _ := rfl

lemma mem_eventNames_addMember (catalog : Catalog) (owner : String) (m : Schema.Member) :
    event ∈ (catalog.addMember owner m).eventNames ↔
      event ∈ catalog.eventNames ∨ ∃ entry, m = .event event entry := by
  cases m with
  | twoWay p e => simp [Catalog.addMember]
  | event name entry =>
    rw [Catalog.addMember]
    by_cases hn : name ∈ catalog.eventNames
    · simp only [List.contains_iff_mem.mpr hn, if_true]
      constructor
      · exact .inl
      · rintro (h | ⟨e, he⟩)
        · exact h
        · cases he
          exact hn
    · simp [hn, eq_comm]

lemma mem_eventNames_addMembers (ms : List Schema.Member) (catalog : Catalog) (owner : String) :
    event ∈ (ms.foldl (Catalog.addMember owner) catalog).eventNames ↔
      event ∈ catalog.eventNames ∨ ∃ entry, .event event entry ∈ ms := by
  induction ms generalizing catalog with
  | nil => simp
  | cons m ms ih =>
    rw [List.foldl_cons, ih, mem_eventNames_addMember, or_assoc, ← exists_or]
    simp [eq_comm]

theorem mem_eventNames_addControls (ls : List Schema.ControlLine) (catalog : Catalog) :
    event ∈ (ls.foldl Catalog.addControl catalog).eventNames ↔
      event ∈ catalog.eventNames ∨ ∃ l ∈ ls, ∃ entry, .event event entry ∈ l.members := by
  induction ls generalizing catalog with
  | nil => simp
  | cons l ls ih =>
    rw [List.foldl_cons, ih, Catalog.addControl, mem_eventNames_addMembers, or_assoc]
    simp

/-! ### Scopes -/

def propertiesOf (scope : String) (ls : List Schema.ScopeLine) : List (String × PropertyType) :=
  (ls.filter (·.scope == scope)).flatMap (·.properties)

lemma propertiesOf_cons (scope : String) (l : Schema.ScopeLine) (ls : List Schema.ScopeLine) :
    propertiesOf scope (l :: ls) =
      (if scope = l.scope then l.properties else []) ++ propertiesOf scope ls := by
  by_cases h : scope = l.scope
  · simp [propertiesOf, h]
  · simp [propertiesOf, h, Ne.symm h]

def extendScopes (t : Table (Table PropertyType)) (l : Schema.ScopeLine) :
    Table (Table PropertyType) :=
  t.upsert l.scope fun u => l.properties.foldl (fun t (name, type) => t.put name type) (u.getD {})

lemma addScopes_eq (ls : List Schema.ScopeLine) (catalog : Catalog) :
    ls.foldl Catalog.addScope catalog =
      { catalog with scopes := ls.foldl extendScopes catalog.scopes } := by
  induction ls generalizing catalog with
  | nil => rfl
  | cons l ls ih =>
    rw [List.foldl_cons, ih]
    rfl

lemma get?_extendScopes (ls : List Schema.ScopeLine) (t : Table (Table PropertyType))
    (scope property : String) :
    ((ls.foldl extendScopes t).get? scope).bind (·.get? property) =
      (last? property (propertiesOf scope ls)).or ((t.get? scope).bind (·.get? property)) := by
  induction ls generalizing t with
  | nil => rfl
  | cons l ls ih =>
    rw [List.foldl_cons, ih, extendScopes, get?_upsert_inner, get?_foldl_put, get?_getD,
      propertiesOf_cons, last?_append, Option.or_assoc]
    congr 1
    by_cases hs : scope = l.scope <;> simp [hs, last?]

lemma lookup_of_mem {es : List (String × α)} (h : (es.map Prod.fst).Nodup) {e : String × α}
    (he : e ∈ es) : es.lookup e.1 = some e.2 := by
  induction es with
  | nil => cases he
  | cons x es ih =>
    obtain ⟨hn, hes⟩ := List.nodup_cons.mp h
    rw [lookup_cons_eq]
    rcases List.mem_cons.mp he with rfl | he
    · rw [if_pos rfl]
    · have hne : e.1 ≠ x.1 := by
        intro hk
        exact hn (hk ▸ List.mem_map.mpr ⟨e, he, rfl⟩)
      rw [if_neg hne, ih hes he]

lemma findSome?_keys (name : α → String) {f : String → Option β} {g : α → Option β}
    {es : List α} (p : String → Bool) (h : ∀ e ∈ es, g e = f (name e)) :
    (es.filter fun e => p (name e)).findSome? g = ((es.map name).filter p).findSome? f := by
  induction es with
  | nil => rfl
  | cons e es ih =>
    obtain ⟨he, hes⟩ := List.forall_mem_cons.mp h
    rw [List.map_cons, List.filter_cons, List.filter_cons]
    cases p (name e) with
    | false => exact ih hes
    | true => simp only [if_true, List.findSome?_cons, he, ih hes]

lemma property?_eq (h : catalog.scopes.keys.Nodup) (property : String) :
    catalog.property? property =
      ((catalog.scopes.get? Catalog.commonScope).bind (·.get? property)).or
        ((catalog.scopes.keys.filter (· != Catalog.commonScope)).findSome? fun s =>
          (catalog.scopes.get? s).bind (·.get? property)) := by
  have hg : ∀ e ∈ catalog.scopes.entries,
      e.2.get? property = (catalog.scopes.get? e.1).bind (·.get? property) := by
    intro e he
    have hl : catalog.scopes.get? e.1 = some e.2 := lookup_of_mem h he
    rw [hl]
    rfl
  rw [Catalog.property?, Option.orElse_eq_or]
  congr 1
  exact findSome?_keys Prod.fst (f := fun s => (catalog.scopes.get? s).bind (·.get? property))
    (· != Catalog.commonScope) hg

/-! ### Catalogs of lines -/

def ofLines (controls : List Schema.ControlLine) (scopes : List Schema.ScopeLine) : Catalog :=
  scopes.foldl Catalog.addScope (controls.foldl Catalog.addControl {})

section OfLines

variable (controls : List Schema.ControlLine) (scopes : List Schema.ScopeLine)

theorem control?_ofLines (type : String) :
    (ofLines controls scopes).control? type =
      last? type (controls.map fun l => (l.name, l.control)) := by
  rw [ofLines, addScopes_eq, Catalog.control?, (addControls_frame ..).1, get?_foldl_controls]
  exact Option.or_none

theorem event?_ofLines (type event : String) :
    (ofLines controls scopes).event? type event =
      last? event ((membersOf type controls).filterMap eventOf?) := by
  rw [ofLines, addScopes_eq]
  exact (collects_events.addControls controls {} type event).trans Option.or_none

theorem changeEvent?_ofLines (type property : String) :
    (ofLines controls scopes).changeEvent? type property =
      last? property ((membersOf type controls).filterMap pairOf?) := by
  rw [ofLines, addScopes_eq]
  exact (collects_changeEvents.addControls controls {} type property).trans Option.or_none

theorem isKnownEvent_ofLines (event : String) :
    (ofLines controls scopes).isKnownEvent event = true ↔
      ∃ l ∈ controls, ∃ entry, .event event entry ∈ l.members := by
  rw [ofLines, addScopes_eq, Catalog.isKnownEvent, List.contains_iff_mem]
  exact (mem_eventNames_addControls controls {}).trans (or_iff_right List.not_mem_nil)

theorem controlNames_ofLines :
    (ofLines controls scopes).controlNames = (controls.map (·.name)).eraseDups := by
  rw [ofLines, addScopes_eq, Catalog.controlNames, (addControls_frame ..).1]
  exact keys_foldl_upsert Schema.ControlLine.name (fun l _ => l.control) controls

lemma scopes_ofLines : (ofLines controls scopes).scopes = scopes.foldl extendScopes {} := by
  rw [ofLines, addScopes_eq, (addControls_frame ..).2]

theorem property?_ofLines (property : String) :
    (ofLines controls scopes).property? property =
      (last? property (propertiesOf Catalog.commonScope scopes)).or
        (((scopes.map (·.scope)).eraseDups.filter (· != Catalog.commonScope)).findSome? fun s =>
          last? property (propertiesOf s scopes)) := by
  have hk : (ofLines controls scopes).scopes.keys = (scopes.map (·.scope)).eraseDups := by
    rw [scopes_ofLines]
    exact keys_foldl_upsert Schema.ScopeLine.scope _ scopes
  have hs : ∀ s, ((ofLines controls scopes).scopes.get? s).bind (·.get? property) =
      last? property (propertiesOf s scopes) := by
    intro s
    rw [scopes_ofLines]
    exact (get?_extendScopes scopes {} s property).trans Option.or_none
  rw [property?_eq (by rw [hk]; exact nodup_eraseDups _), hk, hs]
  simp only [hs]

end OfLines

end TuiMarkup.Proofs.Declarations
