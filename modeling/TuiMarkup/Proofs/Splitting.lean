import Mathlib.Tactic.Lemma
import TuiMarkup.Text.Split

/-! Texts that are put together around a separator come apart at it again. -/

namespace TuiMarkup.Proofs.Splitting

variable {sep c : Char} {mark head a b q s : String} {cs ds x : List Char} {ss : List String}

/-! ### Characters -/

lemma not_mem_append (ha : c ∉ a.toList) (hb : c ∉ b.toList) : c ∉ (a ++ b).toList := by
  rw [String.toList_append, List.mem_append]
  exact not_or.mpr ⟨ha, hb⟩

lemma mem_intercalate (hm : c ∉ mark.toList) :
    c ∈ (mark.intercalate ss).toList ↔ ∃ s ∈ ss, c ∈ s.toList := by
  induction ss with
  | nil => simp
  | cons s ss ih =>
    by_cases hn : ss = []
    · simp [hn]
    · rw [String.intercalate_cons_of_ne_nil hn, String.toList_append, String.toList_append,
        List.mem_append, List.mem_append, ih, or_iff_left hm]
      simp

lemma not_mem_intercalate (hm : c ∉ mark.toList) (hs : ∀ s ∈ ss, c ∉ s.toList) :
    c ∉ (mark.intercalate ss).toList := by
  rw [mem_intercalate hm]
  rintro ⟨s, hm, hc⟩
  exact hs s hm hc

/-! ### Pieces -/

lemma piecesChars_ne_nil (sep : Char) (cs : List Char) : Text.piecesChars sep cs ≠ [] := by
  cases cs with
  | nil => simp [Text.piecesChars]
  | cons c cs =>
    rw [Text.piecesChars]
    split
    · simp
    · split <;> simp

lemma piecesChars_append (sep : Char) (cs ds : List Char) :
    Text.piecesChars sep (cs ++ sep :: ds) =
      Text.piecesChars sep cs ++ Text.piecesChars sep ds := by
  induction cs with
  | nil => simp [Text.piecesChars]
  | cons c cs ih =>
    rw [List.cons_append, Text.piecesChars, Text.piecesChars, ih]
    split
    · rfl
    · obtain ⟨x, xs, hx⟩ := List.exists_cons_of_ne_nil (piecesChars_ne_nil sep cs)
      rw [hx]
      rfl

lemma piecesChars_of_not_mem (h : sep ∉ cs) : Text.piecesChars sep cs = [cs] := by
  induction cs with
  | nil => rfl
  | cons c cs ih =>
    obtain ⟨hc, hcs⟩ := not_or.mp (mt List.mem_cons.mpr h)
    rw [Text.piecesChars, if_neg (Ne.symm hc), ih hcs]

lemma not_mem_of_mem_piecesChars (h : x ∈ Text.piecesChars sep cs) : sep ∉ x := by
  induction cs generalizing x with
  | nil =>
    cases List.mem_singleton.mp h
    exact List.not_mem_nil
  | cons c cs ih =>
    rw [Text.piecesChars] at h
    split at h
    · rcases List.mem_cons.mp h with rfl | h
      · exact List.not_mem_nil
      · exact ih h
    next hc =>
      obtain ⟨y, ys, hy⟩ := List.exists_cons_of_ne_nil (piecesChars_ne_nil sep cs)
      rw [hy] at h ih
      rcases List.mem_cons.mp h with rfl | h
      · intro hm
        rcases List.mem_cons.mp hm with hm | hm
        · exact hc hm.symm
        · exact ih (.head _) hm
      · exact ih (.tail _ h)

lemma toList_around (hm : mark.toList = [sep]) (a b : String) :
    (a ++ mark ++ b).toList = a.toList ++ sep :: b.toList := by
  simp [String.toList_append, hm]

lemma pieces_append (hm : mark.toList = [sep]) (a b : String) :
    Text.pieces sep (a ++ mark ++ b) = Text.pieces sep a ++ Text.pieces sep b := by
  rw [Text.pieces, toList_around hm, piecesChars_append, List.map_append]
  rfl

lemma pieces_of_not_mem (h : sep ∉ q.toList) : Text.pieces sep q = [q] := by
  rw [Text.pieces, piecesChars_of_not_mem h]
  simp

lemma pieces_ne_nil (sep : Char) (s : String) : Text.pieces sep s ≠ [] :=
  mt List.map_eq_nil_iff.mp (piecesChars_ne_nil sep s.toList)

lemma not_mem_of_mem_pieces (h : q ∈ Text.pieces sep a) : sep ∉ q.toList := by
  obtain ⟨cs, hcs, rfl⟩ := List.mem_map.mp h
  rw [String.toList_ofList]
  exact not_mem_of_mem_piecesChars hcs

lemma pieces_intercalate (hm : mark.toList = [sep]) (hs : ∀ s ∈ ss, sep ∉ s.toList)
    (hn : ss ≠ []) : Text.pieces sep (mark.intercalate ss) = ss := by
  induction ss with
  | nil => exact absurd rfl hn
  | cons s ss ih =>
    obtain ⟨h, hss⟩ := List.forall_mem_cons.mp hs
    by_cases hn : ss = []
    · subst hn
      rw [String.intercalate_singleton, pieces_of_not_mem h]
    · rw [String.intercalate_cons_of_ne_nil hn, pieces_append hm, pieces_of_not_mem h, ih hss hn]
      rfl

lemma intercalate_piecesChars (sep : Char) (cs : List Char) :
    [sep].intercalate (Text.piecesChars sep cs) = cs := by
  induction cs with
  | nil => rfl
  | cons c cs ih =>
    obtain ⟨p, ps, hp⟩ := List.exists_cons_of_ne_nil (piecesChars_ne_nil sep cs)
    rw [Text.piecesChars]
    split
    next hc =>
      rw [hp] at ih ⊢
      rw [List.intercalate_cons_cons, ih, hc]
      rfl
    · rw [hp] at ih ⊢
      rw [← ih]
      cases ps <;> rfl

lemma intercalate_pieces (hm : mark.toList = [sep]) (s : String) :
    mark.intercalate (Text.pieces sep s) = s := by
  rw [← String.toList_inj, String.toList_intercalate, hm, Text.pieces, List.map_map]
  simpa using intercalate_piecesChars sep s.toList

/-! ### The first separator -/

lemma cutFirstChars_append (h : sep ∉ cs) (ds : List Char) :
    Text.cutFirstChars sep (cs ++ sep :: ds) = some (cs, ds) := by
  induction cs with
  | nil => simp [Text.cutFirstChars]
  | cons c cs ih =>
    obtain ⟨hc, hcs⟩ := not_or.mp (mt List.mem_cons.mpr h)
    rw [List.cons_append, Text.cutFirstChars, if_neg (Ne.symm hc), ih hcs]
    rfl

lemma cutFirstChars_of_not_mem (h : sep ∉ cs) : Text.cutFirstChars sep cs = none := by
  induction cs with
  | nil => rfl
  | cons c cs ih =>
    obtain ⟨hc, hcs⟩ := not_or.mp (mt List.mem_cons.mpr h)
    rw [Text.cutFirstChars, if_neg (Ne.symm hc), ih hcs]
    rfl

lemma cutFirst_append (hm : mark.toList = [sep]) (h : sep ∉ a.toList) (b : String) :
    Text.cutFirst sep (a ++ mark ++ b) = some (a, b) := by
  rw [Text.cutFirst, toList_around hm, cutFirstChars_append h]
  change some (String.ofList _, String.ofList _) = _
  rw [String.ofList_toList, String.ofList_toList]

lemma cutFirst_of_not_mem (h : sep ∉ s.toList) : Text.cutFirst sep s = none := by
  rw [Text.cutFirst, cutFirstChars_of_not_mem h]
  rfl

lemma exists_first (hm : mark.toList = [sep]) (h : sep ∈ s.toList) :
    ∃ a b, s = a ++ mark ++ b ∧ sep ∉ a.toList := by
  obtain ⟨xs, ys, hs, hx⟩ := List.eq_append_cons_of_mem h
  refine ⟨String.ofList xs, String.ofList ys, ?_, by rwa [String.toList_ofList]⟩
  rw [← String.toList_inj, toList_around hm, String.toList_ofList, String.toList_ofList, hs]

lemma cutFirst_eq_some (hm : mark.toList = [sep]) :
    Text.cutFirst sep s = some (a, b) ↔ s = a ++ mark ++ b ∧ sep ∉ a.toList := by
  constructor
  · intro h
    by_cases hs : sep ∈ s.toList
    · obtain ⟨x, y, rfl, hx⟩ := exists_first hm hs
      rw [cutFirst_append hm hx] at h
      cases h
      exact ⟨rfl, hx⟩
    · rw [cutFirst_of_not_mem hs] at h
      cases h
  · rintro ⟨rfl, hn⟩
    exact cutFirst_append hm hn b

/-! ### The last separator -/

lemma cutLastChars_of_not_mem (h : sep ∉ cs) : Text.cutLastChars sep cs = none := by
  induction cs with
  | nil => rfl
  | cons c cs ih =>
    obtain ⟨hc, hcs⟩ := not_or.mp (mt List.mem_cons.mpr h)
    rw [Text.cutLastChars, ih hcs]
    exact if_neg (Ne.symm hc)

lemma cutLastChars_append (cs : List Char) (h : sep ∉ ds) :
    Text.cutLastChars sep (cs ++ sep :: ds) = some (cs, ds) := by
  induction cs with
  | nil =>
    rw [List.nil_append, Text.cutLastChars, cutLastChars_of_not_mem h]
    exact if_pos rfl
  | cons c cs ih => rw [List.cons_append, Text.cutLastChars, ih]

lemma cutLast_append (hm : mark.toList = [sep]) (a : String) (h : sep ∉ b.toList) :
    Text.cutLast sep (a ++ mark ++ b) = some (a, b) := by
  rw [Text.cutLast, toList_around hm, cutLastChars_append a.toList h]
  change some (String.ofList _, String.ofList _) = _
  rw [String.ofList_toList, String.ofList_toList]

lemma cutLast_of_not_mem (h : sep ∉ s.toList) : Text.cutLast sep s = none := by
  rw [Text.cutLast, cutLastChars_of_not_mem h]
  rfl

/-! ### Known heads and tails -/

lemma afterStart?_append (head s : String) : Text.afterStart? head (head ++ s) = some s := by
  rw [Text.afterStart?, String.toList_append, Text.afterStartChars?_eq_some.mpr rfl,
    Option.map_some, String.ofList_toList]

lemma afterStart?_eq_some : Text.afterStart? head s = some q ↔ s = head ++ q := by
  constructor
  · intro h
    obtain ⟨rest, hr, rfl⟩ := Option.map_eq_some_iff.mp h
    rw [← String.toList_inj, String.toList_append, String.toList_ofList]
    exact Text.afterStartChars?_eq_some.mp hr
  · rintro rfl
    exact afterStart?_append head q

lemma beforeEnd?_eq_some {tail : String} : Text.beforeEnd? tail s = some q ↔ s = q ++ tail := by
  simp only [Text.beforeEnd?, Text.beforeEndChars?, Option.map_eq_some_iff,
    Text.afterStartChars?_eq_some]
  constructor
  · rintro ⟨-, ⟨rest, hr, rfl⟩, rfl⟩
    rw [← String.toList_inj, String.toList_append, String.toList_ofList,
      ← List.reverse_reverse s.toList, hr, List.reverse_append, List.reverse_reverse]
  · rintro rfl
    exact ⟨q.toList, ⟨q.toList.reverse, by simp, by simp⟩, String.ofList_toList⟩

lemma afterStart?_eq_none (hh : head.toList.head? = some c) (hs : s.toList.head? ≠ some c) :
    Text.afterStart? head s = none := by
  rw [Text.afterStart?, Option.map_eq_none_iff, Option.eq_none_iff_forall_ne_some]
  intro rest hr
  rw [Text.afterStartChars?_eq_some] at hr
  rw [hr, List.head?_append, hh] at hs
  exact hs rfl

end TuiMarkup.Proofs.Splitting
