import Mathlib.Tactic.Lemma
import TuiMarkup.Markup.Element

/-! Document order by recursion over the tree. -/

namespace TuiMarkup.Proofs.DocumentOrder

mutual

def preorder : Element → List Element
  | ⟨tag, children⟩ => ⟨tag, children⟩ :: preorderAll children

def preorderAll : List Element → List Element
  | [] => []
  | e :: es => preorder e ++ preorderAll es

end

theorem element_induction {P : Element → Prop}
    (h : ∀ tag children, (∀ c ∈ children, P c) → P ⟨tag, children⟩) (e : Element) : P e :=
  @Element.rec P (fun es => ∀ c ∈ es, P c) h (by simp)
    (fun _ _ he hes => List.forall_mem_cons.mpr ⟨he, hes⟩) e

lemma preorder_eq (e : Element) : preorder e = e :: preorderAll e.children := by
  obtain ⟨tag, children⟩ := e
  rw [preorder]

lemma preorderAll_append (es fs : List Element) :
    preorderAll (es ++ fs) = preorderAll es ++ preorderAll fs := by
  induction es with
  | nil => rfl
  | cons e es ih => rw [List.cons_append, preorderAll, preorderAll, ih, List.append_assoc]

theorem walk_eq_preorderAll (es : List Element) : Element.walk es = preorderAll es := by
  fun_induction Element.walk es with
  | case1 => rfl
  | case2 e rest ih =>
    rw [ih, preorderAll, preorder_eq, preorderAll_append]
    rfl

theorem elements_eq_preorder (d : Document) : d.elements = preorder d.root := by
  rw [Document.elements, Element.descendants, walk_eq_preorderAll, preorderAll, preorderAll,
    List.append_nil]

lemma mem_preorder_self (e : Element) : e ∈ preorder e := by
  simp [preorder_eq]

lemma mem_preorderAll {x : Element} {es : List Element} :
    x ∈ preorderAll es ↔ ∃ e ∈ es, x ∈ preorder e := by
  induction es with
  | nil => simp [preorderAll]
  | cons e es ih => simp [preorderAll, ih]

lemma mem_preorder {x e : Element} :
    x ∈ preorder e ↔ x = e ∨ ∃ c ∈ e.children, x ∈ preorder c := by
  rw [preorder_eq, List.mem_cons, mem_preorderAll]

lemma preorder_trans {x y e : Element} (hx : x ∈ preorder y) (hy : y ∈ preorder e) :
    x ∈ preorder e := by
  induction e using element_induction with
  | h tag children ih =>
    rcases mem_preorder.mp hy with rfl | ⟨c, hc, hy⟩
    · exact hx
    · exact mem_preorder.mpr (Or.inr ⟨c, hc, ih c hc hy⟩)

lemma preorder_below {e p c x : Element} (hp : p ∈ preorder e) (hc : c ∈ p.children)
    (hx : x ∈ preorder c) : x ∈ preorderAll e.children := by
  rcases mem_preorder.mp hp with rfl | ⟨y, hy, hp⟩
  · exact mem_preorderAll.mpr ⟨c, hc, hx⟩
  · have hcp : c ∈ preorder p := mem_preorder.mpr (.inr ⟨c, hc, mem_preorder_self c⟩)
    exact mem_preorderAll.mpr ⟨y, hy, preorder_trans hx (preorder_trans hcp hp)⟩

end TuiMarkup.Proofs.DocumentOrder
