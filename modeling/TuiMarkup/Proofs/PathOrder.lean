import Mathlib.Data.List.Forall2
import Mathlib.Data.List.Nodup
import Mathlib.Data.String.Basic
import Mathlib.Tactic.Lemma
import TuiMarkup.Proofs.PathSpelling

/-! The order of paths, which goes by their components, and lists that are sorted by it. -/

namespace TuiMarkup.Proofs.PathOrder

open Std PathSpelling

variable {p q : Path} {ps qs : List Path}

/-! ### The order -/

def word : Path.Component → String
  | .name s => s
  | .root | .here | .up => ""

lemma compare_eq_compareLex :
    Path.Component.compare = compareLex (compareOn Path.Component.rank) (compareOn word) := by
  funext a b
  cases a <;> cases b <;> rfl

lemma compareComponents_eq_compareLex :
    Path.compareComponents = List.compareLex Path.Component.compare := by
  funext as bs
  induction as generalizing bs with
  | nil => cases bs <;> rfl
  | cons a as ih =>
    cases bs with
    | nil => rfl
    | cons b bs => rw [Path.compareComponents, List.compareLex_cons_cons, ih]

instance : TransCmp Path.Component.compare := by
  rw [compare_eq_compareLex]
  infer_instance

instance : LawfulEqCmp Path.Component.compare where
  eq_of_compare {a b} h := by
    rw [compare_eq_compareLex, compareLex_eq_eq] at h
    have hr : a.rank = b.rank := Std.compare_eq_iff_eq.mp h.1
    have hw : word a = word b := Std.compare_eq_iff_eq.mp h.2
    cases a <;> cases b <;> cases hr
    case name s t => exact congrArg Path.Component.name hw
    all_goals rfl

instance : TransCmp Path.compareComponents := by
  rw [compareComponents_eq_compareLex]
  infer_instance

instance : LawfulEqCmp Path.compareComponents := by
  rw [compareComponents_eq_compareLex]
  infer_instance

def Before (p q : Path) : Prop :=
  Path.compareComponents p.components q.components = .lt

instance (p q : Path) : Decidable (Before p q) :=
  inferInstanceAs (Decidable (_ = _))

lemma le_iff : p.le q = true ↔ (Path.compareComponents p.components q.components).isLE = true := by
  rw [Path.le, bne_iff_ne, Ordering.isLE_iff_ne_gt]

lemma path_le_trans {r : Path} (h : p.le q = true) (h' : q.le r = true) : p.le r = true :=
  le_iff.mpr (TransCmp.isLE_trans (le_iff.mp h) (le_iff.mp h'))

lemma path_le_total (p q : Path) : (p.le q || q.le p) = true := by
  have hs : Path.compareComponents p.components q.components =
      (Path.compareComponents q.components p.components).swap := OrientedCmp.eq_swap
  rw [Bool.or_eq_true, le_iff, le_iff, hs]
  cases Path.compareComponents q.components p.components <;> decide

lemma Before.of_le (h : p.le q = true) (hs : p.same q = false) : Before p q := by
  have hne : Path.compareComponents p.components q.components ≠ .eq := by
    intro he
    exact beq_eq_false_iff_ne.mp hs (LawfulEqCmp.eq_of_compare he)
  rw [le_iff] at h
  rw [Before]
  revert h hne
  cases Path.compareComponents p.components q.components <;> simp

lemma Before.trans_le {r : Path} (h : Before p q) (h' : q.le r = true) : Before p r :=
  TransCmp.lt_of_lt_of_isLE h (le_iff.mp h')

/-! ### Sorted lists -/

lemma pairwise_mergeSort (ps : List Path) :
    (ps.mergeSort Path.le).Pairwise fun p q => p.le q = true := by
  apply List.pairwise_mergeSort
  · intro p q r
    exact path_le_trans
  · exact path_le_total

lemma before_of_mem_dropWhile (h : (p :: ps).Pairwise fun p q => p.le q = true)
    (hq : q ∈ ps.dropWhile (p.same ·)) : Before p q := by
  obtain ⟨hp, hps⟩ := List.pairwise_cons.mp h
  have hd := hps.sublist (List.dropWhile_sublist (p.same ·))
  cases hr : ps.dropWhile (p.same ·) with
  | nil =>
    rw [hr] at hq
    cases hq
  | cons r rs =>
    rw [hr] at hq hd
    have hmem : r ∈ ps := (List.dropWhile_sublist (p.same ·)).subset (hr ▸ .head rs)
    have hs : p.same r = false := by
      have hne : ps.dropWhile (p.same ·) ≠ [] := by
        rw [hr]
        exact List.cons_ne_nil r rs
      have hn := List.head_dropWhile_not (p.same ·) hne
      simp only [hr, List.head_cons] at hn
      exact hn
    have hb : Before p r := .of_le (hp r hmem) hs
    rcases List.mem_cons.mp hq with rfl | hq
    · exact hb
    · exact hb.trans_le ((List.pairwise_cons.mp hd).1 q hq)

lemma pairwise_dropRepeated (h : ps.Pairwise fun p q => p.le q = true) :
    (Path.dropRepeated ps).Pairwise Before := by
  induction ps using Path.dropRepeated.induct with
  | case1 =>
    rw [Path.dropRepeated]
    exact .nil
  | case2 p ps ih =>
    rw [Path.dropRepeated]
    refine .cons ?_ ?_
    · intro q hq
      exact before_of_mem_dropWhile h (mem_of_mem_dropRepeated hq)
    · exact ih ((List.pairwise_cons.mp h).2.sublist (List.dropWhile_sublist _))

theorem pairwise_sorted (ps : List Path) : (Path.sorted ps).Pairwise Before :=
  pairwise_dropRepeated (pairwise_mergeSort ps)

/-- Every path of the one list is in the other, perhaps in another spelling. -/
def Covers (ps qs : List Path) : Prop :=
  ∀ p ∈ ps, ∃ q ∈ qs, p.same q = true

lemma same_symm (h : p.same q = true) : q.same p = true :=
  beq_iff_eq.mpr (beq_iff_eq.mp h).symm

lemma same_trans {r : Path} (h : p.same q = true) (h' : q.same r = true) : p.same r = true :=
  beq_iff_eq.mpr ((beq_iff_eq.mp h).trans (beq_iff_eq.mp h'))

lemma Covers.sorted (h : Covers ps qs) : Covers (Path.sorted ps) (Path.sorted qs) := by
  intro p hp
  obtain ⟨q, hq, hs⟩ := h p (mem_of_mem_sorted hp)
  obtain ⟨r, hr, hs'⟩ := exists_mem_sorted hq
  exact ⟨r, hr, same_trans hs (same_symm hs')⟩

lemma Covers.mem_components {cs : List Path.Component} (h : Covers ps qs)
    (hc : cs ∈ ps.map Path.components) : cs ∈ qs.map Path.components := by
  obtain ⟨p, hp, rfl⟩ := List.mem_map.mp hc
  obtain ⟨q, hq, hs⟩ := h p hp
  exact List.mem_map.mpr ⟨q, hq, (beq_iff_eq.mp hs).symm⟩

lemma pairwise_components (h : ps.Pairwise Before) :
    (ps.map Path.components).Pairwise (Path.compareComponents · · = .lt) :=
  List.pairwise_map.mpr h

lemma nodup_components (h : ps.Pairwise Before) : (ps.map Path.components).Nodup := by
  refine (pairwise_components h).imp ?_
  rintro as bs hlt rfl
  have he : Path.compareComponents as as = .eq := ReflCmp.compare_self
  rw [he] at hlt
  cases hlt

theorem forall₂_same (hp : ps.Pairwise Before) (hq : qs.Pairwise Before) (h : Covers ps qs)
    (h' : Covers qs ps) : List.Forall₂ (fun p q => p.same q = true) ps qs := by
  have hperm : (ps.map Path.components).Perm (qs.map Path.components) :=
    (List.perm_ext_iff_of_nodup (nodup_components hp) (nodup_components hq)).mpr
      fun cs => ⟨h.mem_components, h'.mem_components⟩
  -- a strict order leaves one arrangement only
  have he : ps.map Path.components = qs.map Path.components := by
    refine List.Perm.eq_of_pairwise ?_ (pairwise_components hp) (pairwise_components hq) hperm
    intro as bs _ _ hlt hgt
    exact absurd hgt (OrientedCmp.not_lt_of_lt hlt)
  rw [← List.forall₂_eq_eq_eq, List.forall₂_map_left_iff, List.forall₂_map_right_iff] at he
  exact he.imp fun _ _ hc => beq_iff_eq.mpr hc

lemma countP_same (h : ps.Pairwise Before) (hq : ∃ p ∈ ps, p.same q = true) :
    ps.countP (·.same q) = 1 := by
  have hc : ps.countP (·.same q) = (ps.map Path.components).count q.components := by
    rw [List.count, List.countP_map]
    rfl
  obtain ⟨p, hp, hs⟩ := hq
  rw [hc]
  apply List.count_eq_one_of_mem (nodup_components h)
  exact List.mem_map.mpr ⟨p, hp, beq_iff_eq.mp hs⟩

end TuiMarkup.Proofs.PathOrder
