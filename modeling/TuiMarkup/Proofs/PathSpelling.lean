import Mathlib.Data.List.TakeWhile
import Mathlib.Tactic.Lemma
import TuiMarkup.Proofs.PathSegments

/-! Paths that differ in their spelling only, and lists that keep one of them. -/

namespace TuiMarkup.Proofs.PathSpelling

open Places PathSegments

variable {fs : FileSystem} {p q : Path} {s : String} {place ss : List String} {ps : List Path}
  {t u : Trail}

/-! ### Components -/

def follow (place : List String) : Path.Component → List String
  | .root => []
  | .here => place
  | .up => place.dropLast
  | .name s => place ++ [s]

lemma follow_componentOf (h : s ≠ "") : follow place (Path.componentOf s) = advance place s := by
  rw [Path.componentOf]
  split
  next hs =>
    rw [hs]
    rfl
  next hs =>
    split
    next hu =>
      rw [hu]
      rfl
    next hu => exact (advance_proper ⟨h, hs, hu⟩ place).symm

lemma foldl_follow (isLeading : Bool) (place ss : List String) :
    ((ss.filter fun s => !Path.isIdle isLeading s).map Path.componentOf).foldl follow place =
      ss.foldl advance place := by
  induction ss generalizing place with
  | nil => rfl
  | cons s ss ih =>
    rw [List.filter_cons, List.foldl_cons, ← ih]
    by_cases hs : Path.isIdle isLeading s = true
    · rw [hs, advance_idle hs]
      rfl
    · have hne : s ≠ "" := by
        rintro rfl
        exact hs rfl
      rw [Bool.not_eq_true] at hs
      rw [hs, ← follow_componentOf hne]
      rfl

theorem placeOf_components (fs : FileSystem) (p : Path) :
    placeOf fs p = p.components.foldl follow (fs.working.foldl advance []) := by
  rw [placeOf, startOf, Path.components]
  cases p.isAbsolute with
  | true =>
    rw [if_pos rfl, List.foldl_cons, foldl_follow]
    rfl
  | false =>
    rw [if_neg Bool.false_ne_true]
    cases p.segments with
    | nil => rfl
    | cons s ss =>
      -- The first segment is judged by itself, the others as they would be anywhere.
      have hs : [s].filter (fun s => !Path.isIdle true s) =
          if Path.isIdle true s then [] else [s] := by
        rw [List.filter_cons]
        cases Path.isIdle true s <;> rfl
      have hf := foldl_follow true (fs.working.foldl advance []) [s]
      rw [hs] at hf
      dsimp only
      rw [List.map_append, List.foldl_append, hf, foldl_follow]
      rfl

theorem placeOf_same (h : p.same q = true) (fs : FileSystem) : placeOf fs p = placeOf fs q := by
  rw [placeOf_components, placeOf_components, beq_iff_eq.mp h]

lemma starts_here (h : p.same ⟨"."⟩ = true) (ht : p.text ≠ "") :
    p.isAbsolute = false ∧ p.segments.head? = some "." := by
  have hc : p.components = [.here] := beq_iff_eq.mp h
  rw [Path.components] at hc
  cases ha : p.isAbsolute with
  | true =>
    rw [ha] at hc
    cases hc
  | false =>
    cases hs : p.segments with
    | nil => exact absurd hs (segments_ne_nil p)
    | cons s ss =>
      have hne : s ≠ "" := by
        rintro rfl
        exact ht (text_eq_empty ha (by rw [hs]; rfl))
      have hi : Path.isIdle true s = false := by simp [Path.isIdle, hne]
      rw [ha, hs] at hc
      simp only [hi, Bool.false_eq_true, if_false, List.singleton_append, List.map_cons] at hc
      refine ⟨rfl, ?_⟩
      obtain ⟨hh, -⟩ := List.cons.inj hc
      rw [Path.componentOf] at hh
      split at hh
      next hd => rw [hd, List.head?_cons]
      · split at hh <;> cases hh

/-! ### Lists of paths -/

lemma mem_of_mem_dropRepeated (h : p ∈ Path.dropRepeated ps) : p ∈ ps := by
  induction ps using Path.dropRepeated.induct with
  | case1 =>
    rw [Path.dropRepeated] at h
    exact h
  | case2 q ps ih =>
    rw [Path.dropRepeated] at h
    rcases List.mem_cons.mp h with rfl | h
    · exact .head _
    · exact .tail _ ((List.dropWhile_sublist _).subset (ih h))

lemma exists_mem_dropRepeated (h : p ∈ ps) : ∃ q ∈ Path.dropRepeated ps, q.same p = true := by
  induction ps using Path.dropRepeated.induct with
  | case1 => cases h
  | case2 x ps ih =>
    rw [Path.dropRepeated]
    rcases List.mem_cons.mp h with rfl | h
    · exact ⟨p, .head _, beq_self_eq_true _⟩
    · have ht : ps.takeWhile (x.same ·) ++ ps.dropWhile (x.same ·) = ps :=
        List.takeWhile_append_dropWhile
      rw [← ht, List.mem_append] at h
      rcases h with h | h
      · exact ⟨x, .head _, List.mem_takeWhile_imp h⟩
      · obtain ⟨q, hq, hs⟩ := ih h
        exact ⟨q, .tail _ hq, hs⟩

theorem mem_of_mem_sorted (h : p ∈ Path.sorted ps) : p ∈ ps :=
  List.mem_mergeSort.mp (mem_of_mem_dropRepeated h)

theorem exists_mem_sorted (h : p ∈ ps) : ∃ q ∈ Path.sorted ps, q.same p = true :=
  exists_mem_dropRepeated (List.mem_mergeSort.mpr h)

end TuiMarkup.Proofs.PathSpelling
