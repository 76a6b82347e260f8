import Mathlib.Tactic.Lemma
import TuiMarkup.Code.Initializer
import TuiMarkup.Proofs.Slots

/-! The list of tasks does what recursion over the tree would do. -/

namespace TuiMarkup.Proofs.Plan

open DocumentOrder Slots Initializer

def constructions (f : Fields) (root : ℕ) (t : Tag) : List Statement :=
  if t.index = root then [] else [.construct (called f t.index) (made f t.index)]

def assignments (catalog : Catalog) (f : Fields) (t : Tag) : List Statement :=
  (literals catalog t).map fun (a, l) => .assign (called f t.index) a.key l.code

def subscriptions (catalog : Catalog) (f : Fields) (t : Tag) : List Statement :=
  (t.events.filter fun a => (obsoleteEvent? catalog t a).isNone).map fun a =>
    .subscribe (called f t.index) a.key (Text.trim a.value)

def controlPlan (catalog : Catalog) (f : Fields) (root : ℕ) (t : Tag) : List Statement :=
  constructions f root t ++ assignments catalog f t ++ subscriptions catalog f t

def link (catalog : Catalog) (f : Fields) (parent child : Tag) : Statement :=
  .attach (called f parent.index) (called f child.index)
    (catalog.usesButtonSlot parent.type child.type)

mutual

def plan (catalog : Catalog) (f : Fields) (root : ℕ) : Element → List Statement
  | ⟨tag, children⟩ => controlPlan catalog f root tag ++ planChildren catalog f root tag children

def planChildren (catalog : Catalog) (f : Fields) (root : ℕ) (parent : Tag) :
    List Element → List Statement
  | [] => []
  | c :: cs =>
    plan catalog f root c ++ link catalog f parent c.tag :: planChildren catalog f root parent cs

end

variable {catalog : Catalog} {f : Fields} {root : ℕ}

lemma plan_eq (e : Element) :
    plan catalog f root e =
      controlPlan catalog f root e.tag ++ planChildren catalog f root e.tag e.children := by
  obtain ⟨tag, children⟩ := e
  rw [plan]

lemma control_eq (catalog : Catalog) (root : ℕ) {t : Tag} (h : Covers f t) :
    Initializer.control catalog f root t = .ok (controlPlan catalog f root t) := by
  rw [Initializer.control, h.reference, h.outputType]
  rfl

lemma attachment_eq {p c : Tag} (hp : Covers f p) (hc : Covers f c) :
    attachment catalog f p c = .ok (link catalog f p c) := by
  rw [attachment, hp.reference, hc.reference]
  rfl

/-! ### What a plan consists of -/

lemma mem_plan {e : Element} {s : Statement} :
    s ∈ plan catalog f root e ↔
      (∃ x ∈ preorder e, s ∈ controlPlan catalog f root x.tag) ∨
        ∃ x ∈ preorder e, ∃ c ∈ x.children, s = link catalog f x.tag c.tag := by
  induction e using element_induction with
  | h tag children ih =>
    have hc : s ∈ planChildren catalog f root tag children ↔
        ∃ c ∈ children, s ∈ plan catalog f root c ∨ s = link catalog f tag c.tag := by
      clear ih
      induction children with
      | nil => simp [planChildren]
      | cons c cs ih => simp [planChildren, ih, or_assoc]
    rw [plan, List.mem_append, hc]
    constructor
    · rintro (hs | ⟨c, hc, hs | hs⟩)
      · exact .inl ⟨_, mem_preorder_self _, hs⟩
      · rcases (ih c hc).mp hs with ⟨x, hx, hs⟩ | ⟨x, hx, hs⟩
        · exact .inl ⟨x, mem_preorder.mpr (.inr ⟨c, hc, hx⟩), hs⟩
        · exact .inr ⟨x, mem_preorder.mpr (.inr ⟨c, hc, hx⟩), hs⟩
      · exact .inr ⟨_, mem_preorder_self _, c, hc, hs⟩
    · rintro (⟨x, hx, hs⟩ | ⟨x, hx, y, hy, hs⟩)
      · rcases mem_preorder.mp hx with rfl | ⟨c, hc, hx⟩
        · exact .inl hs
        · exact .inr ⟨c, hc, .inl ((ih c hc).mpr (.inl ⟨x, hx, hs⟩))⟩
      · rcases mem_preorder.mp hx with rfl | ⟨c, hc, hx⟩
        · exact .inr ⟨y, hy, .inr hs⟩
        · exact .inr ⟨c, hc, .inl ((ih c hc).mpr (.inr ⟨x, hx, y, hy, hs⟩))⟩

lemma filterMap_plan {α : Type} {g : Statement → Option α} (hg : ∀ p c b, g (.attach p c b) = none)
    (e : Element) :
    (plan catalog f root e).filterMap g =
      (preorder e).flatMap fun x => (controlPlan catalog f root x.tag).filterMap g := by
  induction e using element_induction with
  | h tag children ih =>
    have hc : (planChildren catalog f root tag children).filterMap g =
        (preorderAll children).flatMap fun x => (controlPlan catalog f root x.tag).filterMap g := by
      induction children with
      | nil => rfl
      | cons c cs ihs =>
        obtain ⟨hc, hcs⟩ := List.forall_mem_cons.mp ih
        have hl : g (link catalog f tag c.tag) = none := hg _ _ _
        rw [planChildren, List.filterMap_append, List.filterMap_cons_none hl, ihs hcs, hc,
          preorderAll, List.flatMap_append]
    rw [plan, List.filterMap_append, hc, preorder, List.flatMap_cons]

lemma planChildren_split (catalog : Catalog) (f : Fields) (root : ℕ) (parent : Tag) {c : Element}
    {cs : List Element} (hc : c ∈ cs) :
    ∃ before after, planChildren catalog f root parent cs =
      before ++ plan catalog f root c ++ link catalog f parent c.tag :: after := by
  obtain ⟨l, r, rfl⟩ := List.append_of_mem hc
  induction l with
  | nil => exact ⟨[], planChildren catalog f root parent r, by simp [planChildren]⟩
  | cons b l ih =>
    obtain ⟨before, after, hs⟩ := ih (by simp)
    exact ⟨plan catalog f root b ++ link catalog f parent b.tag :: before, after,
      by simp [planChildren, hs]⟩

lemma plan_split (catalog : Catalog) (f : Fields) (root : ℕ) {e x c : Element}
    (hx : x ∈ preorder e) (hc : c ∈ x.children) :
    ∃ before after, plan catalog f root e =
      before ++ plan catalog f root c ++ link catalog f x.tag c.tag :: after := by
  induction e using element_induction with
  | h tag children ih =>
    rw [plan]
    rcases mem_preorder.mp hx with rfl | ⟨y, hy, hx⟩
    · obtain ⟨before, after, hs⟩ := planChildren_split catalog f root tag hc
      exact ⟨controlPlan catalog f root tag ++ before, after, by simp [hs]⟩
    · obtain ⟨before, after, hs⟩ := ih y hy hx
      obtain ⟨before', after', hs'⟩ := planChildren_split catalog f root tag hy
      exact ⟨controlPlan catalog f root tag ++ before' ++ before,
        after ++ link catalog f tag y.tag :: after', by simp [hs, hs']⟩

/-! ### The list of tasks -/

def taskPlan (catalog : Catalog) (f : Fields) (root : ℕ) : Task → List Statement
  | .build e => plan catalog f root e
  | .attach parent child => [link catalog f parent child]

lemma childTasks_plan (e : Element) :
    (childTasks e).flatMap (taskPlan catalog f root) =
      planChildren catalog f root e.tag e.children := by
  obtain ⟨tag, children⟩ := e
  rw [childTasks]
  induction children with
  | nil => rfl
  | cons c cs ih =>
    rw [List.flatMap_cons, List.flatMap_append, ih, planChildren]
    simp [taskPlan]

def CoversTask (f : Fields) : Task → Prop
  | .build e => ∀ x ∈ preorder e, Covers f x.tag
  | .attach parent child => Covers f parent ∧ Covers f child

lemma CoversTask.children {e : Element} (h : CoversTask f (.build e)) :
    ∀ t ∈ childTasks e, CoversTask f t := by
  intro t ht
  obtain ⟨c, hc, ht⟩ := List.mem_flatMap.mp ht
  have below : ∀ x ∈ preorder c, Covers f x.tag := fun x hx =>
    h x (mem_preorder.mpr (.inr ⟨c, hc, hx⟩))
  simp only [List.mem_cons, List.not_mem_nil, or_false] at ht
  rcases ht with rfl | rfl
  · exact below
  · exact ⟨h e (mem_preorder_self e), below c (mem_preorder_self c)⟩

theorem run_eq (catalog : Catalog) (root : ℕ) (ts : List Task) (h : ∀ t ∈ ts, CoversTask f t) :
    run catalog f root ts = .ok (ts.flatMap (taskPlan catalog f root)) := by
  induction ts using run.induct with
  | case1 =>
    rw [run]
    rfl
  | case2 e rest ih =>
    obtain ⟨he, hrest⟩ := List.forall_mem_cons.mp h
    have hc := control_eq catalog root (he e (mem_preorder_self e))
    rw [run, hc, ih (List.forall_mem_append.mpr ⟨he.children, hrest⟩), List.flatMap_append,
      childTasks_plan, List.flatMap_cons, taskPlan, plan_eq, List.append_assoc]
    rfl
  | case3 parent child rest ih =>
    obtain ⟨ht, hrest⟩ := List.forall_mem_cons.mp h
    rw [run, attachment_eq ht.1 ht.2, ih hrest]
    rfl

/-! ### Remarks -/

def taskElements : Task → List Element
  | .build e => preorder e
  | .attach _ _ => []

lemma childTasks_elements (e : Element) :
    (childTasks e).flatMap taskElements = preorderAll e.children := by
  rw [childTasks]
  induction e.children with
  | nil => rfl
  | cons c cs ih =>
    rw [List.flatMap_cons, List.flatMap_append, ih, preorderAll]
    simp [taskElements]

/-- What is said of a control is said where the control stands in document order, though other
controls are attached in between. -/
theorem remarks_eq (catalog : Catalog) (path : String) (ts : List Task) :
    remarks catalog path ts = (ts.flatMap taskElements).flatMap fun e =>
      (problems catalog e.tag).map (Diagnostic.of · path e.tag.line e.tag.column) := by
  induction ts using remarks.induct with
  | case1 =>
    rw [remarks]
    rfl
  | case2 e rest ih =>
    rw [remarks, ih, List.flatMap_append, childTasks_elements, List.flatMap_cons, taskElements,
      preorder_eq, List.cons_append, List.flatMap_cons]
  | case3 parent child rest ih =>
    rw [remarks, ih, List.flatMap_cons]
    rfl

theorem diagnostics_eq (catalog : Catalog) (d : Document) :
    Initializer.diagnostics catalog d = d.tags.flatMap fun t =>
      (problems catalog t).map (Diagnostic.of · d.path t.line t.column) := by
  rw [Initializer.diagnostics, remarks_eq, List.flatMap_singleton, Document.tags,
    elements_eq_preorder, List.flatMap_map]
  rfl

/-! ### Documents -/

def naming (d : Document) : List Statement :=
  (d.root.tag.explicitName?.map Statement.nameRoot).toList

def documentPlan (catalog : Catalog) (d : Document) : List Statement :=
  naming d ++ plan catalog (Fields.build catalog d) d.root.tag.index d.root

lemma filterMap_document {α : Type} {g : Statement → Option α}
    (hg : ∀ name, g (.nameRoot name) = none) (catalog : Catalog) (d : Document) :
    (documentPlan catalog d).filterMap g =
      (plan catalog (Fields.build catalog d) d.root.tag.index d.root).filterMap g := by
  have hn : (naming d).filterMap g = [] := by
    rw [naming]
    cases d.root.tag.explicitName? <;> simp [hg]
  rw [documentPlan, List.filterMap_append, hn, List.nil_append]

theorem statements_eq (catalog : Catalog) (d : Document) :
    statements catalog (Fields.build catalog d) d = .ok (documentPlan catalog d) := by
  have hr := run_eq catalog d.root.tag.index [.build d.root]
    (List.forall_mem_singleton.mpr fun _ he => covers_of_mem catalog (tag_mem_tags he))
  rw [statements, hr, List.flatMap_singleton, taskPlan]
  rfl

end TuiMarkup.Proofs.Plan
