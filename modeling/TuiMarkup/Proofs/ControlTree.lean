import Mathlib.Data.List.Nodup
import Mathlib.Tactic.Lemma
import TuiMarkup.Proofs.Building
import TuiMarkup.Proofs.ClassText

/-! The initializer, run on a heap of controls, rebuilds the tree of its document. -/

namespace TuiMarkup.Proofs.ControlTree

open ClassText DocumentOrder Generation Plan Printing Slots

structure View where
  type : String
  children : List (ℕ × Bool)
deriving DecidableEq, Repr

structure Heap where
  views : List View
  names : String → Option ℕ

namespace Heap

def call (h : Heap) (name : String) (address : ℕ) : Heap :=
  { h with names := fun r => if r = name then some address else h.names r }

def make (h : Heap) (type : String) : Heap :=
  { h with views := h.views ++ [⟨type, []⟩] }

def put (h : Heap) (parent child : ℕ) (toButtonSlot : Bool) : Heap :=
  { h with views := h.views.modify parent fun v => ⟨v.type, v.children ++ [(child, toButtonSlot)]⟩ }

def exec (h : Heap) : Statement → Option Heap
  | .nameRoot name => (h.names Fields.self).map (h.call name)
  | .construct reference type => some ((h.make type).call reference h.views.length)
  | .assign reference _ _ | .subscribe reference _ _ => (h.names reference).map fun _ => h
  | .attach parent child toButtonSlot => do
    let p ← h.names parent
    let c ← h.names child
    return h.put p c toButtonSlot

def run (h : Heap) (ss : List Statement) : Option Heap :=
  ss.foldlM exec h

def initial (type : String) : Heap :=
  ⟨[⟨type, []⟩], fun r => if r = Fields.self then some 0 else none⟩

lemma run_append (h : Heap) (ss ts : List Statement) :
    h.run (ss ++ ts) = (h.run ss).bind fun h' => h'.run ts := by
  rw [run, List.foldlM_append]
  rfl

lemma run_cons (h : Heap) (s : Statement) (ss : List Statement) :
    h.run (s :: ss) = (h.exec s).bind fun h' => h'.run ss := by
  rw [run, List.foldlM_cons]
  rfl

lemma run_uses {h : Heap} {ss : List Statement} (hs : ∀ s ∈ ss, h.exec s = some h) :
    h.run ss = some h := by
  induction ss with
  | nil => rfl
  | cons s ss ih =>
    obtain ⟨h₁, h₂⟩ := List.forall_mem_cons.mp hs
    rw [run_cons, h₁]
    exact ih h₂

end Heap

variable {catalog : Catalog} {f : Fields} {root : ℕ}

def viewOf (catalog : Catalog) (f : Fields) (e : Element) : View :=
  ⟨made f e.tag.index,
    e.children.map fun c => (c.tag.index, catalog.usesButtonSlot e.tag.type c.tag.type)⟩

def Indexed (n : ℕ) (es : List Element) : Prop :=
  es.map (·.tag.index) = List.range' n es.length

lemma Indexed.append {n : ℕ} {es fs : List Element} (h : Indexed n (es ++ fs)) :
    Indexed n es ∧ Indexed (n + es.length) fs := by
  rw [Indexed, List.map_append, List.length_append, ← List.range'_append_1] at h
  exact List.append_inj h (by simp)

lemma Indexed.cons {n : ℕ} {e : Element} {es : List Element} (h : Indexed n (e :: es)) :
    e.tag.index = n ∧ Indexed (n + 1) es := by
  rw [Indexed, List.map_cons, List.length_cons, List.range'_succ] at h
  exact List.cons.inj h

def names (f : Fields) (es : List Element) : List String :=
  es.map fun e => called f e.tag.index

lemma names_append (es fs : List Element) : names f (es ++ fs) = names f es ++ names f fs :=
  List.map_append

structure Calls (f : Fields) (es : List Element) (h h' : Heap) : Prop where
  bound : ∀ e ∈ es, h'.names (called f e.tag.index) = some e.tag.index
  frame : ∀ r, r ∉ names f es → h'.names r = h.names r

lemma Calls.append {es fs : List Element} {h h₁ h₂ : Heap} (hn : (names f (es ++ fs)).Nodup)
    (he : Calls f es h h₁) (hf : Calls f fs h₁ h₂) : Calls f (es ++ fs) h h₂ := by
  rw [names_append, List.nodup_append'] at hn
  refine ⟨fun e hm => ?_, fun r hr => ?_⟩
  · rcases List.mem_append.mp hm with hm | hm
    · have hc : called f e.tag.index ∈ names f es := List.mem_map.mpr ⟨e, hm, rfl⟩
      rw [hf.frame _ (hn.2.2 hc)]
      exact he.bound e hm
    · exact hf.bound e hm
  · rw [names_append, List.mem_append, not_or] at hr
    rw [hf.frame r hr.2, he.frame r hr.1]

def Built (catalog : Catalog) (f : Fields) (root : ℕ) (e : Element) : Prop :=
  ∀ h : Heap, root < h.views.length → Indexed h.views.length (preorder e) →
    (names f (preorder e)).Nodup →
    ∃ h', h.run (plan catalog f root e) = some h' ∧
      h'.views = h.views ++ (preorder e).map (viewOf catalog f) ∧ Calls f (preorder e) h h'

lemma modify_middle (before after : List View) (v : View) (g : View → View) :
    (before ++ v :: after).modify before.length g = before ++ g v :: after := by
  induction before with
  | nil => rfl
  | cons b bs ih => simp [ih]

lemma exec_link (catalog : Catalog) {h : Heap} {parent child : Tag} {p c : ℕ}
    (hp : h.names (called f parent.index) = some p)
    (hc : h.names (called f child.index) = some c) :
    h.exec (link catalog f parent child) =
      some (h.put p c (catalog.usesButtonSlot parent.type child.type)) := by
  simp [link, Heap.exec, hp, hc]

lemma run_children (catalog : Catalog) (root : ℕ) {cs : List Element}
    (hb : ∀ c ∈ cs, Built catalog f root c) {parent : Tag} {h : Heap}
    {before after : List View} {type : String} {done : List (ℕ × Bool)}
    (hv : h.views = before ++ ⟨type, done⟩ :: after) (hr : root < h.views.length)
    (hp : h.names (called f parent.index) = some before.length)
    (hi : Indexed h.views.length (preorderAll cs))
    (hn : (called f parent.index :: names f (preorderAll cs)).Nodup) :
    ∃ h', h.run (planChildren catalog f root parent cs) = some h' ∧
      h'.views = before ++
        ⟨type, done ++ cs.map fun c =>
          (c.tag.index, catalog.usesButtonSlot parent.type c.tag.type)⟩ ::
        (after ++ (preorderAll cs).map (viewOf catalog f)) ∧
      Calls f (preorderAll cs) h h' := by
  induction cs generalizing h done after with
  | nil => exact ⟨h, rfl, by simp [hv, preorderAll], by simp [preorderAll], fun _ _ => rfl⟩
  | cons c cs ih =>
    obtain ⟨hc, hcs⟩ := List.forall_mem_cons.mp hb
    rw [preorderAll] at hi hn ⊢
    obtain ⟨hpc, hn⟩ := List.nodup_cons.mp hn
    obtain ⟨hic, his⟩ := hi.append
    have hna := hn
    rw [names_append] at hna
    rw [names_append, List.mem_append, not_or] at hpc
    obtain ⟨h₁, hrun, hviews, hcalls⟩ := hc h hr hic hna.of_append_left
    have hp₁ := (hcalls.frame _ hpc.1).trans hp
    have hx := exec_link catalog hp₁ (hcalls.bound c (mem_preorder_self c))
    -- The child is in place: what was built after the parent stays behind it.
    have hv₁ : (h₁.put before.length c.tag.index
        (catalog.usesButtonSlot parent.type c.tag.type)).views =
        before ++ ⟨type, done ++ [(c.tag.index, catalog.usesButtonSlot parent.type c.tag.type)]⟩ ::
          (after ++ (preorder c).map (viewOf catalog f)) := by
      rw [Heap.put, hviews, hv, List.append_assoc, List.cons_append, modify_middle]
    have hl₁ : (h₁.put before.length c.tag.index
        (catalog.usesButtonSlot parent.type c.tag.type)).views.length =
        h.views.length + (preorder c).length := by
      simp [hv₁, hv]
      omega
    obtain ⟨h₂, hrun₂, hviews₂, hcalls₂⟩ := ih hcs hv₁ (by omega) hp₁ (hl₁ ▸ his)
      (List.nodup_cons.mpr ⟨hpc.2, hna.of_append_right⟩)
    refine ⟨h₂, ?_, ?_, hcalls.append hn ⟨hcalls₂.bound, hcalls₂.frame⟩⟩
    · rw [planChildren, Heap.run_append, hrun, Option.bind_some, Heap.run_cons, hx,
        Option.bind_some, hrun₂]
    · rw [hviews₂]
      simp

lemma run_settings (t : Tag) {h : Heap} {address : ℕ}
    (ht : h.names (called f t.index) = some address) :
    h.run (assignments catalog f t ++ subscriptions catalog f t) = some h := by
  apply Heap.run_uses
  intro s hs
  rcases List.mem_append.mp hs with hs | hs
  · obtain ⟨_, _, rfl⟩ := List.mem_map.mp hs
    simp [Heap.exec, ht]
  · obtain ⟨_, _, rfl⟩ := List.mem_map.mp hs
    simp [Heap.exec, ht]

theorem built (e : Element) : Built catalog f root e := by
  induction e using element_induction with
  | h tag children ih =>
    intro h hr hi hn
    rw [preorder] at hi hn ⊢
    obtain ⟨hx, hi⟩ := hi.cons
    replace hx : tag.index = h.views.length := hx
    have hne : tag.index ≠ root := by omega
    let h₁ := (h.make (made f tag.index)).call (called f tag.index) h.views.length
    have hv : h₁.views = h.views ++ ⟨made f tag.index, []⟩ :: [] := rfl
    have hl : h₁.views.length = h.views.length + 1 := by simp [hv]
    have hp : h₁.names (called f tag.index) = some h.views.length := if_pos rfl
    obtain ⟨h₂, hrun, hviews, hcalls⟩ := run_children catalog root ih hv (by omega) hp (hl ▸ hi) hn
    refine ⟨h₂, ?_, ?_, ?_, ?_⟩
    · have hplan : plan catalog f root ⟨tag, children⟩ =
          .construct (called f tag.index) (made f tag.index) ::
            (assignments catalog f tag ++ subscriptions catalog f tag ++
              planChildren catalog f root tag children) := by
        simp [plan, controlPlan, constructions, hne]
      have hx₁ : h.exec (.construct (called f tag.index) (made f tag.index)) = some h₁ := rfl
      rw [hplan, Heap.run_cons, hx₁, Option.bind_some, Heap.run_append, run_settings tag hp]
      exact hrun
    · rw [hviews]
      simp [viewOf]
    · rintro x hm
      rcases List.mem_cons.mp hm with rfl | hm
      · have hc := (List.nodup_cons.mp hn).1
        rw [hcalls.frame _ hc, hp, hx]
      · exact hcalls.bound x hm
    · intro r hm
      obtain ⟨hr', hm⟩ := List.ne_and_not_mem_of_not_mem_cons hm
      rw [hcalls.frame r hm]
      exact if_neg hr'

/-! ### Statements of the plan -/

def constructed? : Statement → Option (String × String)
  | .construct reference type => some (reference, type)
  | _ => none

def attached? : Statement → Option String
  | .attach _ child _ => some child
  | _ => none

lemma settings_filterMap {α : Type} {g : Statement → Option α} (t : Tag)
    (ha : ∀ r p c, g (.assign r p c) = none) (hs : ∀ r e c, g (.subscribe r e c) = none) :
    (controlPlan catalog f root t).filterMap g = (constructions f root t).filterMap g := by
  have h₁ : (assignments catalog f t).filterMap g = [] := by
    simp [assignments, ha]
  have h₂ : (subscriptions catalog f t).filterMap g = [] := by
    simp [subscriptions, hs]
  rw [controlPlan, List.filterMap_append, List.filterMap_append, h₁, h₂, List.append_nil,
    List.append_nil]

lemma constructed_plan (catalog : Catalog) (f : Fields) (root : ℕ) (e : Element) :
    (plan catalog f root e).filterMap constructed? =
      ((preorder e).filter fun x => decide (x.tag.index ≠ root)).map fun x =>
        (called f x.tag.index, made f x.tag.index) := by
  rw [filterMap_plan (fun _ _ _ => rfl)]
  induction preorder e with
  | nil => rfl
  | cons x xs ih =>
    rw [List.flatMap_cons, ih, settings_filterMap x.tag (fun _ _ _ => rfl) (fun _ _ _ => rfl),
      constructions, List.filter_cons]
    by_cases hx : x.tag.index = root <;> simp [hx, constructed?]

lemma attached_control (t : Tag) : (controlPlan catalog f root t).filterMap attached? = [] := by
  rw [settings_filterMap t (fun _ _ _ => rfl) (fun _ _ _ => rfl), constructions]
  split <;> rfl

lemma attached_plan (catalog : Catalog) (f : Fields) (root : ℕ) (e : Element) :
    ((plan catalog f root e).filterMap attached?).Perm (names f (preorderAll e.children)) := by
  induction e using element_induction with
  | h tag children ih =>
    rw [plan, List.filterMap_append, attached_control, List.nil_append]
    induction children with
    | nil => exact .nil
    | cons c cs ihs =>
      obtain ⟨hc, hcs⟩ := List.forall_mem_cons.mp ih
      have hl : attached? (link catalog f tag c.tag) = some (called f c.tag.index) := rfl
      rw [planChildren, List.filterMap_append, List.filterMap_cons_some hl, preorderAll,
        names_append, preorder_eq]
      exact List.perm_middle.trans (.cons _ (hc.append (ihs hcs)))

lemma attached_once {ss before after : List Statement} {s : Statement} {r : String}
    (hn : (ss.filterMap attached?).Nodup) (hs : ss = before ++ s :: after)
    (hr : attached? s = some r) : r ∉ (before ++ after).filterMap attached? := by
  rw [hs, List.filterMap_append, List.filterMap_cons_some hr] at hn
  rw [List.filterMap_append]
  exact (List.nodup_cons.mp (List.nodup_middle.mp hn)).1

/-! ### Documents -/

/-- The statements make the controls of a document, each one once, and put each where it belongs. -/
structure Rebuilds (catalog : Catalog) (d : Document) (f : Fields) (ss : List Statement) :
    Prop where
  slots : ∀ e ∈ d.elements, f.reference e.tag.index = .ok (called f e.tag.index) ∧
    made f e.tag.index = Fields.outputTypeOf catalog e.tag
  recursive : ss = naming d ++ plan catalog f d.root.tag.index d.root
  distinct : (names f d.elements).Nodup
  constructs : ss.filterMap constructed? =
    d.elements.tail.map fun e => (called f e.tag.index, made f e.tag.index)
  attaches : ∀ p ∈ d.elements, ∀ c ∈ p.children, ∃ before after,
    ss = before ++ link catalog f p.tag c.tag :: after ∧
    called f c.tag.index ∉ (before ++ after).filterMap attached? ∧
    ∀ x ∈ preorder c, .construct (called f x.tag.index) (made f x.tag.index) ∈ before ∧
      ∀ y ∈ x.children, link catalog f x.tag y.tag ∈ before
  attachesOnly : ∀ p c slot, .attach p c slot ∈ ss →
    ∃ x ∈ d.elements, ∃ y ∈ x.children, .attach p c slot = link catalog f x.tag y.tag
  addresses : d.elements.map (·.tag.index) = List.range d.elements.length
  runs : ∃ h, (Heap.initial (made f d.root.tag.index)).run ss = some h ∧
    h.views = d.elements.map (viewOf catalog f) ∧
    ∀ e ∈ d.elements, h.names (called f e.tag.index) = some e.tag.index

lemma run_naming (catalog : Catalog) (d : Document) (type : String) :
    ∃ h, (Heap.initial type).run (naming d) = some h ∧
      h.views = [⟨type, []⟩] ∧
      h.names (called (Fields.build catalog d) d.root.tag.index) = some 0 := by
  rw [called_root, naming]
  cases d.root.tag.explicitName? with
  | none => exact ⟨Heap.initial type, rfl, rfl, by simp [Heap.initial]⟩
  | some name => exact ⟨(Heap.initial type).call name 0, rfl, rfl, by simp [Heap.call]⟩

variable {d : Document}

lemma run_document (catalog : Catalog)
    (hi : Indexed 0 (preorder d.root))
    (hn : (names (Fields.build catalog d) (preorder d.root)).Nodup) :
    ∃ h, (Heap.initial (made (Fields.build catalog d) d.root.tag.index)).run
        (documentPlan catalog d) = some h ∧
      h.views = (preorder d.root).map (viewOf catalog (Fields.build catalog d)) ∧
      ∀ e ∈ preorder d.root,
        h.names (called (Fields.build catalog d) e.tag.index) = some e.tag.index := by
  set f := Fields.build catalog d
  obtain ⟨h, hrun, hv, hp⟩ := run_naming catalog d (made f d.root.tag.index)
  rw [preorder_eq] at hi hn ⊢
  obtain ⟨hx, hi⟩ := hi.cons
  have hl : h.views.length = 0 + 1 := by simp [hv]
  replace hv : h.views = [] ++ ⟨made f d.root.tag.index, []⟩ :: [] := hv
  obtain ⟨h', hrun', hviews, hcalls⟩ := run_children catalog d.root.tag.index
    (fun c _ => built c) hv (by omega) hp (hl ▸ hi) hn
  have hplan : plan catalog f d.root.tag.index d.root =
      assignments catalog f d.root.tag ++ subscriptions catalog f d.root.tag ++
        planChildren catalog f d.root.tag.index d.root.tag d.root.children := by
    simp [plan_eq, controlPlan, constructions]
  refine ⟨h', ?_, ?_, ?_⟩
  · rw [documentPlan, Heap.run_append, hrun, Option.bind_some, hplan, Heap.run_append,
      run_settings _ hp, Option.bind_some, hrun']
  · rw [hviews]
    rfl
  · intro e he
    rcases List.mem_cons.mp he with rfl | he
    · rw [hcalls.frame _ (List.nodup_cons.mp hn).1, hx]
      exact hp
    · exact hcalls.bound e he

lemma index_ne_root {r e : Element} (hi : Indexed 0 (preorder r))
    (he : e ∈ preorderAll r.children) : e.tag.index ≠ r.tag.index := by
  rw [preorder_eq] at hi
  obtain ⟨hx, hi⟩ := hi.cons
  have hm : e.tag.index ∈ List.range' (0 + 1) (preorderAll r.children).length :=
    hi ▸ List.mem_map.mpr ⟨e, he, rfl⟩
  have hl := (List.mem_range'_1.mp hm).1
  omega

lemma constructed_document (catalog : Catalog) (hi : Indexed 0 (preorder d.root)) :
    (documentPlan catalog d).filterMap constructed? =
      (preorder d.root).tail.map fun e =>
        (called (Fields.build catalog d) e.tag.index,
          made (Fields.build catalog d) e.tag.index) := by
  have hrest : (preorderAll d.root.children).filter
      (fun e => decide (e.tag.index ≠ d.root.tag.index)) = preorderAll d.root.children :=
    List.filter_eq_self.mpr fun e he => decide_eq_true (index_ne_root hi he)
  rw [filterMap_document (fun _ => rfl), constructed_plan, preorder_eq,
    List.filter_cons_of_neg (by simp), List.tail_cons, hrest]

lemma attached_document (catalog : Catalog)
    (hn : (names (Fields.build catalog d) (preorder d.root)).Nodup) :
    ((documentPlan catalog d).filterMap attached?).Nodup := by
  rw [filterMap_document (fun _ => rfl), (attached_plan catalog _ _ d.root).nodup_iff]
  rw [preorder_eq] at hn
  exact (List.nodup_cons.mp hn).2

lemma attach_placed (catalog : Catalog) (hi : Indexed 0 (preorder d.root))
    (hn : (names (Fields.build catalog d) (preorder d.root)).Nodup) {p c : Element}
    (hp : p ∈ preorder d.root) (hc : c ∈ p.children) :
    ∃ before after,
      documentPlan catalog d =
        before ++ link catalog (Fields.build catalog d) p.tag c.tag :: after ∧
      called (Fields.build catalog d) c.tag.index ∉ (before ++ after).filterMap attached? ∧
      ∀ x ∈ preorder c,
        .construct (called (Fields.build catalog d) x.tag.index)
          (made (Fields.build catalog d) x.tag.index) ∈ before ∧
        ∀ y ∈ x.children, link catalog (Fields.build catalog d) x.tag y.tag ∈ before := by
  set f := Fields.build catalog d
  obtain ⟨before, after, hs⟩ := plan_split catalog f d.root.tag.index hp hc
  have hd : documentPlan catalog d =
      naming d ++ before ++ plan catalog f d.root.tag.index c ++
        link catalog f p.tag c.tag :: after := by
    rw [documentPlan, hs]
    simp only [List.append_assoc]
  refine ⟨_, after, hd, attached_once (attached_document catalog hn) hd rfl, fun x hx => ⟨?_, ?_⟩⟩
  · apply List.mem_append_right
    apply mem_plan.mpr
    refine .inl ⟨x, hx, ?_⟩
    rw [controlPlan, constructions, if_neg (index_ne_root hi (preorder_below hp hc hx))]
    simp
  · intro y hy
    apply List.mem_append_right
    apply mem_plan.mpr
    exact .inr ⟨x, hx, y, hy, rfl⟩

lemma attach_only {p c : String} {slot : Bool} (h : .attach p c slot ∈ documentPlan catalog d) :
    ∃ x ∈ preorder d.root, ∃ y ∈ x.children,
      .attach p c slot = link catalog (Fields.build catalog d) x.tag y.tag := by
  rcases List.mem_append.mp h with h | h
  · obtain ⟨_, _, hs⟩ := Option.map_eq_some_iff.mp (Option.mem_toList.mp h)
    cases hs
  · rcases mem_plan.mp h with ⟨x, _, hs⟩ | hs
    · have hm : c ∈ (controlPlan catalog (Fields.build catalog d) d.root.tag.index
          x.tag).filterMap attached? := List.mem_filterMap.mpr ⟨_, hs, rfl⟩
      rw [attached_control] at hm
      cases hm
    · exact hs

/-! ### The initializer in print -/

def initializerOf (texts : List String) (bound : List BoundControl) : List Layout :=
  Layout.braced "private void InitializeComponent()"
    (texts.map .line ++ if bound.isEmpty then [] else [.blank, .line "SetupBindings();"])

lemma initializer_eq (catalog : Catalog) (d : Document) (context : Option String) :
    (classOf catalog d context).initializer =
      initializerOf ((documentPlan catalog d).map (·.text)) (bound catalog d context) := by
  rw [ClassFile.initializer, initializerOf, List.map_map, classOf]
  cases (bound catalog d context).isEmpty <;> rfl

lemma linesAll_initializerOf (indent : UInt64) (texts : List String) (bound : List BoundControl) :
    linesAll indent (initializerOf texts bound) =
      [⟨"private void InitializeComponent()", indent⟩, ⟨"\x7b", indent⟩] ++
        texts.map (⟨·, indent + 1⟩) ++
        (if bound.isEmpty then [] else [⟨"", indent + 1⟩, ⟨"SetupBindings();", indent + 1⟩]) ++
        [⟨"\x7d", indent⟩] := by
  rw [initializerOf, linesAll_braced, linesAll_append, linesAll_lines]
  cases bound.isEmpty <;> simp [linesAll, lines]

/-- When the controls of a document that was read are all called differently, what is written to
build them makes a tree like that of the document. The statements are the lines of the initializer,
in their order, and nothing follows them there but the call that sets up bindings, if there are
any. -/
theorem initializer_rebuilds {reading catalog : Catalog} {source path : String} {d : Document}
    (hd : Document.read reading source path = .ok d)
    (hn : ((Fields.build catalog d).slots.map (·.reference)).Nodup) :
    ∃ ss texts, Initializer.statements catalog (Fields.build catalog d) d = .ok ss ∧
      List.Forall₂ Reads ss texts ∧
      (∀ context, ∃ c bound, ClassFile.ofDocument catalog d context = .ok c ∧
        boundControls catalog context (Fields.build catalog d) d.tags = .ok bound ∧
        (∀ p : Page, p.indent.toNat + 1 < 2 ^ 64 → ∃ q, c.printInitializer p.blank = .ok q ∧
          q.lines = p.lines ++
            ([⟨"private void InitializeComponent()", p.indent⟩, ⟨"\x7b", p.indent⟩] ++
              texts.map (⟨·, p.indent + 1⟩) ++
              (if bound.isEmpty then []
                else [⟨"", p.indent + 1⟩, ⟨"SetupBindings();", p.indent + 1⟩]) ++
              [⟨"\x7d", p.indent⟩]) ++
            [⟨"", p.indent⟩]) ∧
        ∀ width, d.generate catalog context width = .ok (textOf width (file c.space
          (Layout.braced ("partial class " ++ c.name ++ " : " ++ c.base)
            (c.fields.map (fun f => .line ("private " ++ f.1 ++ " " ++ f.2 ++ " = null!;")) ++
              .blank :: initializerOf texts bound ++
              (c.wiring.map ClassFile.wiringMethods).getD []))))) ∧
      Rebuilds catalog d (Fields.build catalog d) ss := by
  have hx := Building.document_indices hd
  have hnd : (d.tags.map (·.index)).Nodup := hx ▸ List.nodup_range
  rw [← map_called catalog hnd, tags_eq, List.map_map] at hn
  have hi : Indexed 0 (preorder d.root) := by
    rw [tags_eq] at hx
    simpa [Indexed, List.range_eq_range', Function.comp_def] using hx
  refine ⟨documentPlan catalog d, _, statements_eq catalog d, reads_texts _, fun context => ?_, ?_⟩
  · refine ⟨_, _, ofDocument_eq catalog d context, bound_eq catalog d context, fun p hp => ?_,
      fun width => ?_⟩
    · have hr : Room p.indent 1 := hp
      obtain ⟨q, hq, hl⟩ := lines_printAll (hr.mono (Nat.le_of_eq (depth_initializer _)))
      rw [ClassFile.printInitializer_eq]
      refine ⟨q, hq, ?_⟩
      rw [hl, initializer_eq, linesAll_initializerOf]
    · rw [generate_eq, layout_eq, ← initializer_eq]
      rfl
  -- the elements in document order are the preorder, in which they are numbered
  · have he := elements_eq_preorder d
    exact {
      slots := fun e h => ⟨(covers_of_mem catalog (tag_mem_tags (he ▸ h))).reference,
        made_eq catalog hnd (tag_mem_tags (he ▸ h))⟩
      recursive := rfl
      distinct := he ▸ hn
      constructs := he ▸ constructed_document catalog hi
      attaches := fun p hp c hc => attach_placed catalog hi hn (he ▸ hp) hc
      attachesOnly := fun p c slot h => he ▸ attach_only h
      addresses := by
        rw [he, List.range_eq_range']
        exact hi
      runs := he ▸ run_document catalog hi hn }

def dialogs : Catalog where
  controls := ⟨[("Dialog", { outputType := "Dialog", isContainer := true, hasButtonSlot := true }),
    ("View", { outputType := "View", isContainer := true }), ("Label", { outputType := "Label" }),
    ("Button", { outputType := "Button", isActionButton := true })]⟩

def dialog : String :=
  "<Dialog x:Class='M'><View><Label/></View><Button x:Name='b'/></Dialog>"

theorem initializer_rebuilds_dialog :
    ∃ d, Document.read {} dialog "m" = .ok d ∧
      (Fields.build dialogs d).slots.map (·.reference) = ["this", "__View_1", "__Label_1", "b"] ∧
      ∃ ss, Rebuilds dialogs d (Fields.build dialogs d) ss ∧
        ∃ c q, ClassFile.ofDocument dialogs d none = .ok c ∧
          c.printInitializer (Page.new 1).blank = .ok q ∧
          q.lines.map (·.text) =
            ["", "private void InitializeComponent()", "\x7b", "__View_1 = new View();",
              "__Label_1 = new Label();", "__View_1.Add(__Label_1);", "this.Add(__View_1);",
              "b = new Button();", "this.AddButton(b);", "\x7d", ""] := by
  have hr : (Document.read {} dialog "m").toOption.map (fun d =>
      ((Fields.build dialogs d).slots.map (·.reference),
        (documentPlan dialogs d).map (·.text), (bound dialogs d none).isEmpty)) =
      some (["this", "__View_1", "__Label_1", "b"],
        ["__View_1 = new View();", "__Label_1 = new Label();", "__View_1.Add(__Label_1);",
          "this.Add(__View_1);", "b = new Button();", "this.AddButton(b);"], true) := by
    decide +kernel
  cases hd : Document.read {} dialog "m" with
  | error _ =>
    rw [hd] at hr
    cases hr
  | ok d =>
    rw [hd] at hr
    obtain ⟨hs, hr⟩ := Prod.mk.inj (Option.some.inj hr)
    obtain ⟨ht, hb⟩ := Prod.mk.inj hr
    obtain ⟨ss, texts, hss, hreads, hc, hrebuilds⟩ :=
      @initializer_rebuilds _ dialogs _ _ _ hd (by rw [hs]; decide)
    obtain ⟨c, bound, hc, hbound, hp, -⟩ := hc none
    obtain ⟨q, hq, hl⟩ := hp (Page.new 1) (by decide)
    have hplan : documentPlan dialogs d = ss :=
      Except.ok.inj ((statements_eq dialogs d).symm.trans hss)
    have hv : Generation.bound dialogs d none = bound :=
      Except.ok.inj ((bound_eq dialogs d none).symm.trans hbound)
    refine ⟨d, rfl, hs, ss, hrebuilds, c, q, hc, hq, ?_⟩
    rw [hl, texts_eq hreads, ← hplan, ht, ← hv, if_pos hb]
    rfl

end TuiMarkup.Proofs.ControlTree
